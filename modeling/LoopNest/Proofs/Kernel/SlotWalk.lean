import LoopNest.Proofs.Kernel.Activation
import LoopNest.Proofs.Kernel.Slots

/-!
The walk over slots. It visits what the walk over environments does: a slot is read only while its loop runs, so what
ended loops leave in theirs is never seen.
-/

namespace LoopNest

section Evaluation

variable {ρ : Nat → Nat} {env slots : Env} (h : ∀ i, slots.getD (ρ i) 0 = env.getD i 0)
include h

theorem KernelForm.eval_relabel (f : KernelForm) : (f.relabel ρ).eval slots = f.eval env := by
  have hterms (total : Int) (ts : List (Nat × Int)) :
      evalTerms slots total (ts.map fun t => (ρ t.1, t.2)) = evalTerms env total ts := by
    induction ts generalizing total with
    | nil => rfl
    | cons t ts ih =>
      rw [List.map_cons, evalTerms, evalTerms, h]
      exact congrArg _ (funext fun p => congrArg _ (funext ih))
  exact hterms f.constant f.terms

theorem KernelForm.evalAll_relabel (fs : List KernelForm) :
    evalAll slots (fs.map (relabel ρ)) = evalAll env fs := by
  induction fs with
  | nil => rfl
  | cons f fs ih => rw [List.map_cons, evalAll, evalAll, eval_relabel h, ih]

theorem Place.offset_relabel (place : Place) : (place.relabel ρ).offset slots = place.offset env := by
  have hindices (total : Nat) (indices : List (KernelForm × Nat × Nat)) :
      offsetFrom slots total (indices.map fun i => (i.1.relabel ρ, i.2)) = offsetFrom env total indices := by
    induction indices generalizing total with
    | nil => rfl
    | cons i indices ih =>
      rw [List.map_cons, offsetFrom, offsetFrom, KernelForm.eval_relabel h]
      simp only [ih]
  exact hindices 0 place.indices

theorem KernelExpr.eval_relabel {V : Type} (A : Arithmetic V) (loaded : Array V) (e : KernelExpr) :
    (e.relabel ρ).eval A loaded slots = e.eval A loaded env := by
  induction e with
  | const v => rfl
  | slot f => rw [relabel, eval, eval, KernelForm.eval_relabel h]
  | load n => rfl
  | binary op l r ihl ihr => rw [relabel, eval, eval, ihl, ihr]
  | neg e ih => rw [relabel, eval, eval, ih]
  | call f e ih => rw [relabel, eval, eval, ih]

theorem Range.bounds_relabel (r : Range) : (r.relabel ρ).bounds slots = r.bounds env := by
  rw [bounds, bounds, relabel, KernelForm.eval_relabel h, KernelForm.eval_relabel h]
  cases r.clamp with
  | none => rfl
  | some c =>
    rw [Option.map_some]
    simp only [KernelForm.eval_relabel h]

end Evaluation

namespace Slots

section Walks

def Agree {ε α β : Type} (R : α → β → Prop) : Except ε α → Except ε β → Prop
  | .ok a, .ok b => R a b
  | .error e, .error f => e = f
  | _, _ => False

theorem Agree.bind {ε α β α' β' : Type} {R : α → β → Prop} {S : α' → β' → Prop} {x : Except ε α} {y : Except ε β}
    {f : α → Except ε α'} {g : β → Except ε β'} (h : Agree R x y) (hfg : ∀ a b, R a b → Agree S (f a) (g b)) :
    Agree S (x >>= f) (y >>= g) := by
  cases x with
  | error e =>
    cases y with
    | error e' => exact h
    | ok b => exact h.elim
  | ok a =>
    cases y with
    | error e' => exact h.elim
    | ok b => exact hfg a b h

theorem Agree.imp {ε α β : Type} {R S : α → β → Prop} {x : Except ε α} {y : Except ε β} (h : Agree R x y)
    (hRS : ∀ a b, R a b → S a b) : Agree S x y := by
  have hpure := h.bind (f := pure) (g := pure) hRS
  rwa [bind_pure, bind_pure] at hpure

abbrev Activations : Type := List (Nat × Env)

structure Marks (names : List String) (begun : Activations) (a : LoopNest.Iteration) (b : Iteration) : Prop where
  slot : b.slot = a.loop
  name : names[b.slot]? = some a.dim
  value : b.value = a.value
  activation : ∃ i, b.activation = i + 1 ∧ begun[i]? = some (a.loop, a.around)

structure Shows (names : List String) (begun : Activations) (i : LoopNest.Instance) (j : Instance) : Prop where
  computation : j.statement.computation = i.statement.computation
  point : KernelForm.evalAll j.slots j.statement.iterators = i.point
  reads : j.statement.reads.map (fun place => (place.buffer, place.offset j.slots)) =
    i.statement.reads.map fun place => (place.buffer, place.offset i.env)
  store : (j.statement.store.buffer, j.statement.store.offset j.slots) =
    (i.statement.store.buffer, i.statement.store.offset i.env)
  value {V : Type} (A : Arithmetic V) (loaded : Array V) :
    j.statement.value.eval A loaded j.slots = i.statement.value.eval A loaded i.env
  concurrent : List.Forall₂ (Marks names begun) i.concurrent j.concurrent

section Activations

variable {names : List String} {begun more : Activations} {a a' : LoopNest.Iteration} {b b' : Iteration}

theorem Marks.append (h : Marks names begun a b) (more : Activations) : Marks names (begun ++ more) a b := by
  obtain ⟨i, hi, hbegun⟩ := h.activation
  refine ⟨h.slot, h.name, h.value, i, hi, ?_⟩
  rw [List.getElem?_append_left (List.getElem?_eq_some_iff.1 hbegun).1, hbegun]

theorem Marks.activation_eq_iff (hnodup : begun.Nodup) (h : Marks names begun a b) (h' : Marks names begun a' b') :
    b.activation = b'.activation ↔ a.loop = a'.loop ∧ a.around = a'.around := by
  obtain ⟨i, hi, hbegun⟩ := h.activation
  obtain ⟨j, hj, hbegun'⟩ := h'.activation
  constructor
  · intro hsame
    obtain rfl : i = j := by omega
    exact Prod.mk.inj (Option.some.inj (hbegun.symm.trans hbegun'))
  · rintro ⟨hloop, haround⟩
    obtain ⟨hilt, hibegun⟩ := List.getElem?_eq_some_iff.1 hbegun
    obtain ⟨hjlt, hjbegun⟩ := List.getElem?_eq_some_iff.1 hbegun'
    have hsame : begun[i] = begun[j] := by rw [hibegun, hjbegun, hloop, haround]
    obtain rfl : i = j := hnodup.getElem_inj_iff.1 hsame
    rw [hi, hj]

theorem Shows.append {i : LoopNest.Instance} {j : Instance} (h : Shows names begun i j) (more : Activations) :
    Shows names (begun ++ more) i j :=
  { h with
    value := h.value
    concurrent := h.concurrent.imp fun _ _ hm => hm.append more }

end Activations

theorem shows_statement {names : List String} {begun : Activations} {ρ : Nat → Nat} {env slots : Env}
    (h : ∀ i, slots.getD (ρ i) 0 = env.getD i 0) (st : Statement) {concurrent : List LoopNest.Iteration}
    {marks : List Iteration} (hmarks : List.Forall₂ (Marks names begun) concurrent marks) :
    Shows names begun ⟨st, env, concurrent⟩ ⟨st.relabel ρ, slots, marks⟩ where
  computation := rfl
  point := KernelForm.evalAll_relabel h st.iterators
  reads := by
    rw [Statement.relabel, List.map_map]
    refine List.map_congr_left fun place _ => ?_
    rw [Function.comp_apply, Place.offset_relabel h]
    rfl
  store := by
    rw [Statement.relabel, Place.offset_relabel h]
    rfl
  value A loaded := KernelExpr.eval_relabel h A loaded st.value
  concurrent := hmarks

mutual

def Named (names : List String) : LoopNest.Kernel.Node → Prop
  | .leaf _ => True
  | .loop r body => names[r.number]? = some r.dim ∧ NamedAll names body

def NamedAll (names : List String) : List LoopNest.Kernel.Node → Prop
  | [] => True
  | n :: ns => Named names n ∧ NamedAll names ns

end

structure Follows (names : List String) (slots : List Nat) (begun : Activations) (env : Env)
    (concurrent : List LoopNest.Iteration) (w : Walker) : Prop where
  size : w.slots.length = names.length
  values : List.Forall₂ (fun slot v => w.slots[slot]? = some v) slots env
  concurrent : List.Forall₂ (Marks names begun) concurrent w.concurrent
  activations : w.activations = begun.length

def Fresh (begun : Activations) (env : Env) (low high : Nat) : Prop :=
  ∀ a ∈ begun, ¬ (low ≤ a.1 ∧ a.1 < high ∧ env <:+ a.2)

/-- What the loops from `low` to `high` leave behind: activations of their own below these values, and values in
their own slots. -/
structure Ran {σ τ : Type} (R : Activations → σ → τ → Prop) (begun : Activations) (env : Env) (low high : Nat)
    (w : Walker) (s : σ) (t : Walker × τ) (more : Activations) : Prop where
  below : ∀ a ∈ more, low ≤ a.1 ∧ a.1 < high ∧ env <:+ a.2
  nodup : (begun ++ more).Nodup
  size : t.1.slots.length = w.slots.length
  frame : ∀ slot < low, t.1.slots[slot]? = w.slots[slot]?
  concurrent : t.1.concurrent = w.concurrent
  activations : t.1.activations = (begun ++ more).length
  related : R (begun ++ more) s t.2

section Loops

def ownMarks (r : Range) (activation : Nat) (v : Int) : List Iteration :=
  if r.concurrent then [⟨r.number, activation, v⟩] else []

def ownActivation (r : Range) (env : Env) : Activations := if r.concurrent then [(r.number, env)] else []

variable {r : Range} {w : Walker}

theorem relabel_walker (w : Walker) (r : Range) (ρ : Nat → Nat) : w.enter (r.relabel ρ) = w.enter r ∧
    w.next (r.relabel ρ) = w.next r ∧ w.leave (r.relabel ρ) = w.leave r := ⟨rfl, rfl, rfl⟩

theorem enter_eq (w : Walker) (r : Range) (env : Env) (lower : Int) : w.enter r lower =
    { w with
      activations := w.activations + (ownActivation r env).length
      concurrent := w.concurrent ++ ownMarks r (w.activations + 1) lower } := by
  unfold Walker.enter ownActivation ownMarks
  split_ifs
  · rfl
  · rw [List.append_nil]
    rfl

theorem next_concurrent {marks : List Iteration} {activation : Nat} {u : Int}
    (h : w.concurrent = marks ++ ownMarks r activation u) (v : Int) :
    (w.next r v).concurrent = marks ++ ownMarks r activation v := by
  unfold Walker.next ownMarks at *
  split_ifs at h ⊢
  · simp [h]
  · exact h

theorem leave_concurrent {marks : List Iteration} {activation : Nat} {u : Int}
    (h : w.concurrent = marks ++ ownMarks r activation u) : (w.leave r).concurrent = marks := by
  unfold Walker.leave ownMarks at *
  split_ifs at h ⊢
  · simp [h]
  · rw [h, List.append_nil]

theorem leave_slots (w : Walker) (r : Range) :
    (w.leave r).slots = w.slots ∧ (w.leave r).activations = w.activations := by
  unfold Walker.leave
  split_ifs <;> exact ⟨rfl, rfl⟩

structure Between {σ τ : Type} (R : Activations → σ → τ → Prop) (r : Range) (activation : Nat) (begun : Activations)
    (env : Env) (high : Nat) (w : Walker) (v : Int) (s : σ) (t : Walker × τ) (more : Activations) : Prop where
  below : ∀ a ∈ more, r.number < a.1 ∧ a.1 < high ∧ ∃ u < v, (u :: env) <:+ a.2
  nodup : (begun ++ more).Nodup
  size : t.1.slots.length = w.slots.length
  frame : ∀ slot < r.number, t.1.slots[slot]? = w.slots[slot]?
  concurrent : ∃ u, t.1.concurrent = w.concurrent ++ ownMarks r activation u
  activations : t.1.activations = (begun ++ more).length
  related : R (begun ++ more) s t.2

theorem forEach_agrees {ε σ τ : Type} {I : Int → σ → τ → Prop} {step : Int → σ → Outcome ε σ}
    {step' : Int → τ → Outcome ε τ} (hstep : ∀ v s t, I v s t → Agree (I (v + 1)) (step v s) (step' v t))
    (count : Nat) {v : Int} {s : σ} {t : τ} (h : I v s t) :
    Agree (I (v + count)) (LoopNest.Kernel.forEach step count v s) (LoopNest.Kernel.forEach step' count v t) := by
  induction count generalizing v s t with
  | zero => simpa [LoopNest.Kernel.forEach, Agree] using h
  | succ count ih =>
    refine (hstep v s t h).bind fun s t h => ?_
    have hnext : v + ((count + 1 : Nat) : Int) = v + 1 + count := by omega
    rw [hnext]
    exact ih h

end Loops

theorem getD_slotAt {bound : Nat} {slots : List Nat} {env vec : Env} (hsize : vec.length = bound)
    (h : List.Forall₂ (fun slot v => vec[slot]? = some v) slots env) (i : Nat) :
    vec.getD (slotAt bound slots i) 0 = env.getD i 0 := by
  have hlength := h.length_eq
  rw [slotAt, List.getD_eq_getElem?_getD, List.getD_eq_getElem?_getD, List.getD_eq_getElem?_getD]
  rcases Nat.lt_or_ge i slots.length with hi | hi
  · have henv : i < env.length := by omega
    have hvalue : vec[slots[i]]? = some env[i] := h.get hi henv
    rw [List.getElem?_eq_getElem hi, Option.getD_some, hvalue, List.getElem?_eq_getElem henv]
  · have hvec : vec.length ≤ bound + i := by omega
    have henv : env.length ≤ i := by omega
    rw [List.getElem?_eq_none hi, Option.getD_none, List.getElem?_eq_none hvec, List.getElem?_eq_none henv]

theorem eq_of_suffixes {env e : Env} {u v : Int} (hu : (u :: env) <:+ e) (hv : (v :: env) <:+ e) : u = v := by
  have hsame := List.IsSuffix.eq_of_length (List.suffix_of_suffix_length_le hu hv (Nat.le_refl _)) rfl
  exact (List.cons.inj hsame).1

section Simulation

variable {ε σ τ : Type} {names : List String} {R : Activations → σ → τ → Prop}

theorem Fresh.inside {begun more : Activations} {env : Env} {low high : Nat} {r : Range} (hr : r.number = low)
    (h : Fresh begun env low high) {v : Int}
    (hmore : ∀ a ∈ more, r.number < a.1 ∧ a.1 < high ∧ ∃ u < v, (u :: env) <:+ a.2) :
    Fresh (begun ++ ownActivation r env ++ more) (v :: env) (low + 1) high := by
  intro a ha hbelow
  rw [List.append_assoc, List.mem_append, List.mem_append] at ha
  obtain ⟨hlow, hhigh, hsuffix⟩ := hbelow
  rcases ha with ha | ha | ha
  · exact h a ha ⟨by omega, hhigh, (List.suffix_cons v env).trans hsuffix⟩
  · unfold ownActivation at ha
    split_ifs at ha
    · rw [List.mem_singleton.1 ha] at hlow
      simp only at hlow
      omega
    · exact absurd ha List.not_mem_nil
  · obtain ⟨-, -, u, hu, husuffix⟩ := hmore a ha
    have hsame := eq_of_suffixes husuffix hsuffix
    omega

theorem Between.follows {begun more : Activations} {env : Env} {slots : List Nat} {high : Nat} {w : Walker} {v : Int}
    {s : σ} {t : Walker × τ} {r : Range} {concurrent : List LoopNest.Iteration}
    (h : Between R r (begun.length + 1) (begun ++ ownActivation r env) env high w v s t more)
    (hf : Follows names slots begun env concurrent w) (hname : names[r.number]? = some r.dim)
    (hlt : ∀ slot ∈ slots, slot < r.number) :
    Follows names (r.number :: slots) (begun ++ ownActivation r env ++ more) (v :: env) (r.inside env concurrent v)
      (t.1.next r v) := by
  have hnumber : r.number < t.1.slots.length := by
    rw [h.size, hf.size]
    exact (List.getElem?_eq_some_iff.1 hname).1
  obtain ⟨u, hu⟩ := h.concurrent
  refine ⟨?_, .cons ?_ ?_, ?_, h.activations⟩
  · rw [Walker.next, List.length_set, h.size, hf.size]
  · rw [Walker.next, List.getElem?_set_self hnumber]
  · have hslots := (List.forall₂_and_left (p := (· ∈ slots)) _ _).2 ⟨fun slot hs => hs, hf.values⟩
    refine hslots.imp fun slot x ⟨hmem, hx⟩ => ?_
    have hslot := hlt slot hmem
    rw [Walker.next, List.getElem?_set_ne (Nat.ne_of_gt hslot), h.frame slot hslot, hx]
  · rw [next_concurrent hu, Range.inside, ownMarks]
    have houter := hf.concurrent.imp fun a b hm => (hm.append (ownActivation r env)).append more
    split_ifs with hconcurrent
    · refine List.rel_append houter (.cons ⟨rfl, hname, rfl, begun.length, rfl, ?_⟩ .nil)
      rw [ownActivation, if_pos hconcurrent]
      simp
    · rw [List.append_nil]
      exact houter

theorem Fresh.mono {begun : Activations} {env : Env} {low high low' high' : Nat} (h : Fresh begun env low high)
    (hlow : low ≤ low') (hhigh : high' ≤ high) : Fresh begun env low' high' :=
  fun a ha hbelow => h a ha ⟨Nat.le_trans hlow hbelow.1, Nat.lt_of_lt_of_le hbelow.2.1 hhigh, hbelow.2.2⟩

section Siblings

variable {begun more more' : Activations} {env : Env} {low mid high : Nat} {w : Walker} {s s' : σ} {t t' : Walker × τ}

theorem Ran.nothing (hw : w.activations = begun.length) (hbegun : begun.Nodup) {t : τ} (hst : R begun s t) :
    Ran R begun env low high w s (w, t) [] where
  below a ha := absurd ha List.not_mem_nil
  nodup := by rwa [List.append_nil]
  size := rfl
  frame _ _ := rfl
  concurrent := rfl
  activations := by rw [List.append_nil, hw]
  related := by rwa [List.append_nil]

theorem Ran.fresh (h : Ran R begun env low mid w s t more) (hfresh : Fresh begun env mid high) :
    Fresh (begun ++ more) env mid high := by
  intro a ha hbelow
  rcases List.mem_append.1 ha with ha | ha
  · exact hfresh a ha hbelow
  · have hlt := (h.below a ha).2.1
    omega

theorem Ran.follows {slots : List Nat} {concurrent : List LoopNest.Iteration} (h : Ran R begun env low mid w s t more)
    (hf : Follows names slots begun env concurrent w) (hlt : ∀ slot ∈ slots, slot < low) :
    Follows names slots (begun ++ more) env concurrent t.1 := by
  refine ⟨h.size.trans hf.size, ?_, ?_, h.activations⟩
  · have hslots := (List.forall₂_and_left (p := (· ∈ slots)) _ _).2 ⟨fun slot hs => hs, hf.values⟩
    exact hslots.imp fun slot v ⟨hmem, hv⟩ => (h.frame slot (hlt slot hmem)).trans hv
  · rw [h.concurrent]
    exact hf.concurrent.imp fun a b hm => hm.append more

theorem Ran.append (h : Ran R begun env low mid w s t more) (h' : Ran R (begun ++ more) env mid high t.1 s' t' more')
    (hle : low ≤ mid) (hle' : mid ≤ high) : Ran R begun env low high w s' t' (more ++ more') := by
  refine ⟨fun a ha => ?_, ?_, h'.size.trans h.size, fun slot hslot => ?_, h'.concurrent.trans h.concurrent, ?_, ?_⟩
  · rcases List.mem_append.1 ha with ha | ha
    · obtain ⟨hlow, hmid, hsuffix⟩ := h.below a ha
      exact ⟨hlow, by omega, hsuffix⟩
    · obtain ⟨hmid, hhigh, hsuffix⟩ := h'.below a ha
      exact ⟨by omega, hhigh, hsuffix⟩
  · rw [← List.append_assoc]
    exact h'.nodup
  · rw [h'.frame slot (by omega), h.frame slot hslot]
  · rw [h'.activations, List.append_assoc]
  · rw [← List.append_assoc]
    exact h'.related

end Siblings

section Steps

variable {begun more more' : Activations} {env : Env} {low high : Nat} {w : Walker} {v : Int} {s s' : σ}
  {t t' : Walker × τ} {r : Range}

theorem Between.enter (hR : ∀ begun more s t, R begun s t → R (begun ++ more) s t) (hbegun : begun.Nodup)
    (hfresh : (r.number, env) ∉ begun) (hw : w.activations = begun.length) {t : τ} (hst : R begun s t) (lower : Int) :
    Between R r (begun.length + 1) (begun ++ ownActivation r env) env high w lower s (w.enter r lower, t) [] := by
  rw [enter_eq w r env]
  refine ⟨fun a ha => absurd ha List.not_mem_nil, ?_, rfl, fun _ _ => rfl, ⟨lower, by rw [hw]⟩, ?_, ?_⟩
  · rw [List.append_nil]
    refine hbegun.append ?_ fun a ha hown => ?_
    · unfold ownActivation
      split_ifs
      · exact List.nodup_singleton _
      · exact List.nodup_nil
    · unfold ownActivation at hown
      split_ifs at hown
      · exact hfresh (List.mem_singleton.1 hown ▸ ha)
      · exact absurd hown List.not_mem_nil
  · rw [List.append_nil, List.length_append, hw]
  · rw [List.append_nil]
    exact hR begun _ s t hst

theorem Between.next {activation : Nat} (h : Between R r activation begun env high w v s t more)
    (hbody : Ran R (begun ++ more) (v :: env) (r.number + 1) high (t.1.next r v) s' t' more') :
    Between R r activation begun env high w (v + 1) s' t' (more ++ more') := by
  refine ⟨fun a ha => ?_, ?_, ?_, fun slot hslot => ?_, ⟨v, ?_⟩, ?_, ?_⟩
  · rcases List.mem_append.1 ha with ha | ha
    · obtain ⟨hlow, hhigh, u, hu, hsuffix⟩ := h.below a ha
      exact ⟨hlow, hhigh, u, by omega, hsuffix⟩
    · obtain ⟨hlow, hhigh, hsuffix⟩ := hbody.below a ha
      exact ⟨hlow, hhigh, v, Int.lt_succ v, hsuffix⟩
  · rw [← List.append_assoc]
    exact hbody.nodup
  · rw [hbody.size, Walker.next, List.length_set, h.size]
  · rw [hbody.frame slot (Nat.lt_succ_of_lt hslot), Walker.next, List.getElem?_set_ne (Nat.ne_of_gt hslot),
      h.frame slot hslot]
  · obtain ⟨u, hu⟩ := h.concurrent
    rw [hbody.concurrent, next_concurrent hu]
  · rw [hbody.activations, List.append_assoc]
  · rw [← List.append_assoc]
    exact hbody.related

theorem Between.leave {activation : Nat} (hr : r.number < high)
    (h : Between R r activation (begun ++ ownActivation r env) env high w v s t more) :
    Ran R begun env r.number high w s (t.1.leave r, t.2) (ownActivation r env ++ more) := by
  obtain ⟨hslots, hactivations⟩ := leave_slots t.1 r
  obtain ⟨u, hu⟩ := h.concurrent
  refine ⟨fun a ha => ?_, ?_, ?_, fun slot hslot => ?_, leave_concurrent hu, ?_, ?_⟩
  · rcases List.mem_append.1 ha with ha | ha
    · unfold ownActivation at ha
      split_ifs at ha
      · rw [List.mem_singleton.1 ha]
        exact ⟨Nat.le_refl _, hr, List.suffix_refl env⟩
      · exact absurd ha List.not_mem_nil
    · obtain ⟨hlow, hhigh, u, -, hsuffix⟩ := h.below a ha
      exact ⟨Nat.le_of_lt hlow, hhigh, (List.suffix_cons u env).trans hsuffix⟩
  · rw [← List.append_assoc]
    exact h.nodup
  · rw [hslots, h.size]
  · rw [hslots, h.frame slot hslot]
  · rw [hactivations, h.activations, List.append_assoc]
  · rw [← List.append_assoc]
    exact h.related

end Steps

/-- Where an instance shows the same, the visitors do; what they know of activations is kept when others begin. -/
structure Simulates (names : List String) (R : Activations → σ → τ → Prop)
    (visit : LoopNest.Instance → σ → Outcome ε σ) (visit' : Instance → τ → Outcome ε τ) : Prop where
  append : ∀ begun more s t, R begun s t → R (begun ++ more) s t
  visit : ∀ begun i j s t, begun.Nodup → Shows names begun i j → R begun s t →
    Agree (R begun) (visit i s) (visit' j t)

variable {visit : LoopNest.Instance → σ → Outcome ε σ} {visit' : Instance → τ → Outcome ε τ}

mutual

theorem walkNode_agrees (h : Simulates names R visit visit') {low high : Nat} (n : LoopNest.Kernel.Node)
    (hn : LoopNest.Kernel.InRange low high n) (hnamed : Named names n) {slots : List Nat}
    (hlt : ∀ slot ∈ slots, slot < low) {begun : Activations} {env : Env} {concurrent : List LoopNest.Iteration}
    {w : Walker} (hf : Follows names slots begun env concurrent w) (hfresh : Fresh begun env low high)
    (hbegun : begun.Nodup) {s : σ} {t : τ} (hst : R begun s t) :
    Agree (fun s t => ∃ more, Ran R begun env low high w s t more)
      (LoopNest.Kernel.walkNode visit env concurrent n s) (walkNode visit' (slotted names.length slots n) (w, t)) := by
  have hvalues := getD_slotAt hf.size hf.values
  cases n with
  | leaf st =>
    rw [LoopNest.Kernel.walkNode, slotted, walkNode, ← bind_pure (visit _ s)]
    refine (h.visit begun _ _ s t hbegun (shows_statement hvalues st hf.concurrent) hst).bind fun s t hst => ?_
    exact ⟨[], Ran.nothing hf.activations hbegun hst⟩
  | loop r body =>
    obtain ⟨rfl, hbody⟩ := hn
    have hhigh : r.number < high := LoopNest.Kernel.InRangeAll.le body hbody
    have hinside : ∀ slot ∈ r.number :: slots, slot < r.number + 1 :=
      List.forall_mem_cons.2 ⟨Nat.lt_succ_self _, fun slot hs => Nat.lt_succ_of_lt (hlt slot hs)⟩
    obtain ⟨henter, hnext, hleave⟩ := relabel_walker w r (slotAt names.length slots)
    rw [LoopNest.Kernel.walkNode, slotted, walkNode, Range.bounds_relabel hvalues, henter]
    cases hb : r.bounds env with
    | error e => rfl
    | ok bounds =>
      obtain ⟨lower, upper⟩ := bounds
      have hown : (r.number, env) ∉ begun := fun hmem =>
        hfresh _ hmem ⟨Nat.le_refl _, hhigh, List.suffix_refl env⟩
      -- the invariant between iterations holds at first, and the body keeps it
      have hloop := forEach_agrees (I := fun v s t => ∃ more, Between R r (begun.length + 1)
          (begun ++ ownActivation r env) env high w v s t more) (fun v s t hst => by
        obtain ⟨more, hbetween⟩ := hst
        exact (walkNodes_agrees h body hbody hnamed.2 hinside (hbetween.follows hf hnamed.1 hlt)
          (hfresh.inside rfl hbetween.below) hbetween.nodup hbetween.related).imp
          fun s t ⟨more', hran⟩ => ⟨more ++ more', hbetween.next hran⟩)
        (upper - lower).toNat ⟨[], Between.enter h.append hbegun hown hf.activations hst lower⟩
      have hreturn := hloop.bind (f := pure) (g := fun t => pure (t.1.leave r, t.2))
        (S := fun s t => ∃ more, Ran R begun env r.number high w s t more)
        fun s t ⟨more, hbetween⟩ => ⟨_, hbetween.leave hhigh⟩
      rw [bind_pure] at hreturn
      exact hreturn

theorem walkNodes_agrees (h : Simulates names R visit visit') {low high : Nat} (ns : List LoopNest.Kernel.Node)
    (hns : LoopNest.Kernel.InRangeAll low high ns) (hnamed : NamedAll names ns) {slots : List Nat}
    (hlt : ∀ slot ∈ slots, slot < low) {begun : Activations} {env : Env} {concurrent : List LoopNest.Iteration}
    {w : Walker} (hf : Follows names slots begun env concurrent w) (hfresh : Fresh begun env low high)
    (hbegun : begun.Nodup) {s : σ} {t : τ} (hst : R begun s t) :
    Agree (fun s t => ∃ more, Ran R begun env low high w s t more)
      (LoopNest.Kernel.walkNodes visit env concurrent ns s)
      (walkNodes visit' (slottedAll names.length slots ns) (w, t)) := by
  cases ns with
  | nil => exact ⟨[], Ran.nothing hf.activations hbegun hst⟩
  | cons n ns =>
    obtain ⟨mid, hn, hns⟩ := hns
    have hle := LoopNest.Kernel.InRange.le n hn
    have hle' := LoopNest.Kernel.InRangeAll.le ns hns
    rw [LoopNest.Kernel.walkNodes, slottedAll, walkNodes]
    refine (walkNode_agrees h n hn hnamed.1 hlt hf (hfresh.mono (Nat.le_refl _) hle') hbegun hst).bind
      fun s t ⟨more, hran⟩ => ?_
    refine (walkNodes_agrees h ns hns hnamed.2 (fun slot hs => Nat.lt_of_lt_of_le (hlt slot hs) hle)
      (hran.follows hf hlt) (hran.fresh (hfresh.mono hle (Nat.le_refl _))) hran.nodup hran.related).imp
      fun s t ⟨more', hran'⟩ => ⟨more ++ more', hran.append hran' hle hle'⟩

end

end Simulation

end Walks

section Names

variable {p : Program}

mutual

theorem named_of_node {scope : Numbering.Scope} (n : Node) (front : List String) {k : LoopNest.Kernel.Node}
    {next : Nat} (h : Numbering.node p scope front.length n = .ok (k, next)) (back : List String) :
    Named (front ++ n.dims ++ back) k := by
  cases n with
  | leaf l =>
    obtain ⟨st, -, rfl, -⟩ := Numbering.node_leaf_eq_ok h
    trivial
  | loop hd body =>
    obtain ⟨r, ks, hr, hb, rfl⟩ := Numbering.node_loop_eq_ok h
    have hlength : front.length + 1 = (front ++ [hd.dim]).length := by simp
    rw [hlength] at hb
    have hbody := named_of_nodes body _ hb back
    rw [Node.dims]
    refine ⟨by simp [hr.number, hr.dim], ?_⟩
    simpa only [List.append_assoc, List.cons_append, List.nil_append] using hbody

theorem named_of_nodes {scope : Numbering.Scope} (ns : List Node) (front : List String)
    {ks : List LoopNest.Kernel.Node} {next : Nat} (h : Numbering.nodes p scope front.length ns = .ok (ks, next))
    (back : List String) : NamedAll (front ++ Node.dimsAll ns ++ back) ks := by
  cases ns with
  | nil =>
    cases h
    trivial
  | cons n ns =>
    obtain ⟨k, mid, rest, hn, hns, rfl⟩ := Numbering.nodes_cons_eq_ok h
    have hmid : mid = (front ++ n.dims).length := by rw [next_of_node n hn, List.length_append]
    rw [hmid] at hns
    have hfirst := named_of_node n front hn (Node.dimsAll ns ++ back)
    have hrest := named_of_nodes ns _ hns back
    rw [Node.dimsAll]
    exact ⟨by simpa only [List.append_assoc] using hfirst, by simpa only [List.append_assoc] using hrest⟩

end

end Names

variable {p : Program} {roots : List Node}

theorem walk_agrees {k : LoopNest.Kernel} (hk : LoopNest.Kernel.ofTree p roots = .ok k) :
    ∃ k', Kernel.ofTree p roots = .ok k' ∧ k'.names = Node.dimsAll roots ∧
      ∀ {ε σ τ : Type} {R : Activations → σ → τ → Prop} {visit : LoopNest.Instance → σ → Outcome ε σ}
        {visit' : Instance → τ → Outcome ε τ}, Simulates (Node.dimsAll roots) R visit visit' →
        ∀ s t, R [] s t →
          Agree (fun s t => ∃ begun, begun.Nodup ∧ R begun s t) (k.walk visit s) (k'.walk visit' t) := by
  refine ⟨⟨slottedAll (Node.dimsAll roots).length [] k.body, Node.dimsAll roots⟩, ?_, rfl, ?_⟩
  · rw [ofTree_eq, hk]
    rfl
  intro ε σ τ R visit visit' h s t hst
  have hrange := LoopNest.Kernel.inRangeAll_of_ofTree hk
  obtain ⟨⟨body, loops⟩, hb, hk⟩ := bind_eq_ok.1 hk
  cases hk
  have hnamed : NamedAll (Node.dimsAll roots) body := by
    simpa using named_of_nodes roots [] hb []
  have hstart : Follows (Node.dimsAll roots) [] [] [] [] ⟨List.replicate (Node.dimsAll roots).length 0, [], 0⟩ :=
    ⟨List.length_replicate, .nil, .nil, rfl⟩
  have hwalk := walkNodes_agrees h body hrange hnamed (fun _ hs => absurd hs List.not_mem_nil) hstart
    (fun _ ha => absurd ha List.not_mem_nil) List.nodup_nil hst
  have hreturn := hwalk.bind (f := pure) (g := fun t => pure t.2)
    (S := fun s t => ∃ begun, begun.Nodup ∧ R begun s t)
    fun s t ⟨more, hran⟩ => ⟨more, by simpa using hran.nodup, by simpa using hran.related⟩
  rw [bind_pure] at hreturn
  exact hreturn

theorem instances_agree {k : LoopNest.Kernel} (hk : LoopNest.Kernel.ofTree p roots = .ok k) (ε : Type) :
    ∃ k', Kernel.ofTree p roots = .ok k' ∧
      Agree (fun is js => ∃ begun, begun.Nodup ∧ List.Forall₂ (Shows (Node.dimsAll roots) begun) is js)
        (k.walk (fun i is => (.ok (is ++ [i]) : Outcome ε _)) [])
        (k'.walk (fun j js => (.ok (js ++ [j]) : Outcome ε _)) []) := by
  obtain ⟨k', hk', -, hwalk⟩ := walk_agrees hk
  refine ⟨k', hk', hwalk (R := fun begun => List.Forall₂ (Shows (Node.dimsAll roots) begun)) ⟨?_, ?_⟩ [] [] .nil⟩
  · exact fun begun more is js his => his.imp fun i j hij => hij.append more
  · exact fun begun i j is js _ hij his => List.rel_append his (.cons hij .nil)

end Slots

end LoopNest
