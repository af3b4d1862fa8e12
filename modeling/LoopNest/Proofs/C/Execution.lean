import LoopNest.Proofs.C.Code
import LoopNest.Proofs.C.Values

/-!
Running code: statements in their order, loops as long as their condition is not zero. What is observed is every
assignment that is executed, with the variables in scope and the elements it names.
-/

namespace LoopNest.C

structure Event where
  ts : List Token
  scope : List (String × Int)
  elements : List (String × Int)

def Evaluates (scope : List (String × Int)) (a : String × Formula) (element : String × Int) : Prop :=
  element.1 = a.1 ∧ a.2.value scope = some element.2

inductive Iterates (test : Int → Option Int) (body : Int → List Event → Prop) : Int → List Event → Prop where
  | stop {v : Int} (h : test v = some 0) : Iterates test body v []
  | next {v t : Int} {first rest : List Event} (h : test v = some t) (ht : t ≠ 0) (hfirst : body v first)
      (hrest : Iterates test body (v + 1) rest) : Iterates test body v (first ++ rest)

namespace Code

mutual

def Runs (scope : List (String × Int)) : Code → List Event → Prop
  | assign ts subscripts, es =>
    ∃ elements, List.Forall₂ (Evaluates scope) subscripts elements ∧ es = [⟨ts, scope, elements⟩]
  | loop counter first goOn body, es =>
    ∃ v, first.value scope = some v ∧
      Iterates (fun v => goOn.value ((counter, v) :: scope)) (fun v => RunsAll ((counter, v) :: scope) body) v es

def RunsAll (scope : List (String × Int)) : List Code → List Event → Prop
  | [], es => es = []
  | c :: cs, es => ∃ first rest, c.Runs scope first ∧ RunsAll scope cs rest ∧ es = first ++ rest

end

end Code

theorem Iterates.unique {test : Int → Option Int} {body : Int → List Event → Prop}
    (hbody : ∀ v es es', body v es → body v es' → es = es') {v : Int} {es es' : List Event}
    (h : Iterates test body v es) (h' : Iterates test body v es') : es = es' := by
  induction h generalizing es' with
  | stop hstop =>
    cases h' with
    | stop => rfl
    | next hgo ht => exact absurd (Option.some.inj (hgo.symm.trans hstop)) ht
  | next hgo ht hfirst hrest ih =>
    cases h' with
    | stop hstop => exact absurd (Option.some.inj (hgo.symm.trans hstop)) ht
    | next _ _ hfirst' hrest' => rw [hbody _ _ _ hfirst hfirst', ih hrest']

theorem Evaluates.unique {scope : List (String × Int)} {subscripts : List (String × Formula)}
    {elements elements' : List (String × Int)} (h : List.Forall₂ (Evaluates scope) subscripts elements)
    (h' : List.Forall₂ (Evaluates scope) subscripts elements') : elements = elements' := by
  induction h generalizing elements' with
  | nil => cases h'; rfl
  | cons ha _ ih =>
    cases h' with
    | cons ha' hrest' =>
      rw [ih hrest', Prod.ext (ha.1.trans ha'.1.symm) (Option.some.inj (ha.2.symm.trans ha'.2))]

namespace Code

mutual

theorem Runs.unique {scope : List (String × Int)} (c : Code) {es es' : List Event} (h : c.Runs scope es)
    (h' : c.Runs scope es') : es = es' := by
  cases c with
  | assign ts subscripts =>
    obtain ⟨elements, helements, rfl⟩ := h
    obtain ⟨elements', helements', rfl⟩ := h'
    rw [Evaluates.unique helements helements']
  | loop counter first goOn body =>
    obtain ⟨v, hv, hiterates⟩ := h
    obtain ⟨v', hv', hiterates'⟩ := h'
    cases hv.symm.trans hv'
    have hbody (w : Int) (us us' : List Event) (hus : RunsAll ((counter, w) :: scope) body us)
        (hus' : RunsAll ((counter, w) :: scope) body us') : us = us' := RunsAll.unique body hus hus'
    exact hiterates.unique hbody hiterates'

theorem RunsAll.unique {scope : List (String × Int)} (cs : List Code) {es es' : List Event} (h : RunsAll scope cs es)
    (h' : RunsAll scope cs es') : es = es' := by
  cases cs with
  | nil => exact h.trans h'.symm
  | cons c cs =>
    obtain ⟨first, rest, hfirst, hrest, rfl⟩ := h
    obtain ⟨first', rest', hfirst', hrest', rfl⟩ := h'
    rw [Runs.unique c hfirst hfirst', RunsAll.unique cs hrest hrest']

end

end Code

theorem exists_iterates {α : Type} {R : Event → α → Prop} {body : Int → List Event → Prop} {test : Int → Option Int}
    {top : Int} (htest : ∀ v, test v = some (if v < top then 1 else 0)) {xs : Int → List α} {count : Nat} {v : Int}
    (hcount : count = (top - v).toNat)
    (hbody : ∀ w ∈ valuesFrom v count, ∃ es, body w es ∧ List.Forall₂ R es (xs w)) :
    ∃ es, Iterates test body v es ∧ List.Forall₂ R es ((valuesFrom v count).flatMap xs) := by
  induction count generalizing v with
  | zero =>
    have hstop : ¬ v < top := by omega
    exact ⟨[], .stop (by rw [htest, if_neg hstop]), .nil⟩
  | succ count ih =>
    have hgo : v < top := by omega
    rw [valuesFrom_succ] at hbody ⊢
    obtain ⟨⟨first, hfirst, hxs⟩, hbody⟩ := List.forall_mem_cons.1 hbody
    obtain ⟨rest, hrest, hys⟩ := ih (by omega) hbody
    exact ⟨first ++ rest, .next (by rw [htest, if_pos hgo]) (by decide) hfirst hrest, List.rel_append hxs hys⟩

end LoopNest.C
