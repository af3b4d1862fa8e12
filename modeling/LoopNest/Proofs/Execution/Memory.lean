import LoopNest.Execution.Interpreter
import LoopNest.Proofs.Kernel.Meaning
import Mathlib.Logic.Function.Basic

namespace LoopNest

open LoopNest.Flow

abbrev Memory (V : Type) : Type := Location → V

namespace Visit

variable {V : Type} (A : Arithmetic V) (p : Program)

def result (v : Visit) (m : Memory V) : V :=
  match p.computations[v.id.1]? with
  | some c =>
    A.round (Interpreter.dtypeOf p v.store.1)
      (c.expr.valueFrom A (pointEnv c.iterators v.id.2) (fun n => (v.reads.map m).getD n A.zero) 0)
  | none => A.zero

def step (v : Visit) (m : Memory V) : Memory V := Function.update m v.store (v.result A p m)

def stepAll (vs : List Visit) (m : Memory V) : Memory V := vs.foldl (fun m v => v.step A p m) m

@[simp] theorem stepAll_nil (m : Memory V) : stepAll A p [] m = m := rfl

@[simp] theorem stepAll_cons (v : Visit) (vs : List Visit) (m : Memory V) :
    stepAll A p (v :: vs) m = stepAll A p vs (v.step A p m) := rfl

@[simp] theorem stepAll_append (vs ws : List Visit) (m : Memory V) :
    stepAll A p (vs ++ ws) m = stepAll A p ws (stepAll A p vs m) := by
  simp [stepAll]

variable {A p} {v w : Visit}

theorem Obeys.reads_eq (hv : v.Obeys p) (hw : w.Obeys p) (hid : v.id = w.id) : v.reads = w.reads := by
  obtain ⟨c, hc, hreads, -⟩ := hv
  obtain ⟨c', hc', hreads', -⟩ := hw
  rw [hid] at hc hreads
  cases hc.symm.trans hc'
  rw [hreads, hreads']

theorem Obeys.store_eq (hv : v.Obeys p) (hw : w.Obeys p) (hid : v.id = w.id) : v.store = w.store := by
  obtain ⟨c, hc, -, hstore⟩ := hv
  obtain ⟨c', hc', -, hstore'⟩ := hw
  rw [hid] at hc hstore
  cases hc.symm.trans hc'
  rw [hstore, hstore']

theorem result_congr_memory {m m' : Memory V} (h : ∀ a ∈ v.reads, m a = m' a) :
    v.result A p m = v.result A p m' := by
  simp only [result, List.map_congr_left h]

theorem result_congr (hv : v.Obeys p) (hw : w.Obeys p) (hid : v.id = w.id) {m m' : Memory V}
    (h : ∀ a ∈ v.reads, m a = m' a) : v.result A p m = w.result A p m' := by
  rw [result_congr_memory h]
  simp only [result, hid, hv.reads_eq hw hid, hv.store_eq hw hid]

theorem stepAll_of_lastWriter_eq_none {vs : List Visit} {a : Location} (h : lastWriter vs a = none)
    (m : Memory V) : stepAll A p vs m a = m a := by
  induction vs generalizing m with
  | nil => rfl
  | cons v vs ih =>
    rw [lastWriter_eq_none] at h
    rw [stepAll_cons, ih (lastWriter_eq_none.2 fun w hw => h w (List.mem_cons_of_mem v hw))]
    exact Function.update_of_ne (h v List.mem_cons_self).symm _ _

theorem stepAll_of_lastWriter_eq_some {vs : List Visit} {a : Location} {x : InstanceId}
    (h : lastWriter vs a = some x) (m : Memory V) :
    ∃ before v after, vs = before ++ v :: after ∧ v.id = x ∧
      stepAll A p vs m a = v.result A p (stepAll A p before m) := by
  obtain ⟨before, v, after, rfl, hx, hstore, hlast⟩ := exists_of_lastWriter_eq_some h
  refine ⟨before, v, after, rfl, hx, ?_⟩
  rw [stepAll_append, stepAll_cons, stepAll_of_lastWriter_eq_none (lastWriter_eq_none.2 hlast), step,
    ← hstore, Function.update_self]

theorem step_comm (h : ¬ v.Clashes w) (m : Memory V) :
    v.step A p (w.step A p m) = w.step A p (v.step A p m) := by
  rw [Clashes, not_or] at h
  have hv : v.result A p (w.step A p m) = v.result A p m := by
    refine result_congr_memory fun a ha => Function.update_of_ne ?_ _ _
    rintro rfl
    exact h.2 (List.mem_cons_of_mem _ ha)
  have hw : w.result A p (v.step A p m) = w.result A p m := by
    refine result_congr_memory fun a ha => Function.update_of_ne ?_ _ _
    rintro rfl
    exact h.1 (List.mem_cons_of_mem _ ha)
  have hne : v.store ≠ w.store := by
    intro he
    rw [he] at h
    exact h.1 List.mem_cons_self
  simp only [step] at hv hw ⊢
  rw [hv, hw, Function.update_comm hne.symm]

end Visit

namespace Flow

open Visit

section Same

variable {V : Type} {A : Arithmetic V} {p : Program} {initial vs : List Visit}
  (hfaithful : Faithful p initial vs) (hinitial : ∀ v ∈ initial, v.Obeys p) (hvs : ∀ v ∈ vs, v.Obeys p)
include hfaithful hinitial hvs

theorem Faithful.result_eq (m : Memory V) {before' after' : List Visit} {v' : Visit}
    (h' : initial = before' ++ v' :: after') {before after : List Visit} {v : Visit}
    (h : vs = before ++ v :: after) (hid : v.id = v'.id) :
    v.result A p (stepAll A p before m) = v'.result A p (stepAll A p before' m) := by
  -- by the place in the initial walk: what an instance depends on has run before it there, though perhaps in another
  -- order in the other walk
  induction hn : before'.length using Nat.strongRecOn
    generalizing before' v' after' before v after with
  | ind n ih =>
  have hv := hvs v (by rw [h]; simp)
  have hv' := hinitial v' (by rw [h']; simp)
  have hproducers := hfaithful.producers before v after h before' v' after' h' hid
  rw [producersOf, producersOf, ← hv.reads_eq hv' hid] at hproducers
  refine result_congr hv hv' hid fun a ha => ?_
  have hwriter : lastWriter before a = lastWriter before' a := List.map_inj_left.1 hproducers a ha
  cases hlast : lastWriter before a with
  | none =>
    rw [stepAll_of_lastWriter_eq_none hlast, stepAll_of_lastWriter_eq_none (hwriter ▸ hlast)]
  | some x =>
    obtain ⟨b, w, c, rfl, hw, hvalue⟩ := stepAll_of_lastWriter_eq_some (A := A) (p := p) hlast m
    obtain ⟨b', w', c', rfl, hw', hvalue'⟩ :=
      stepAll_of_lastWriter_eq_some (A := A) (p := p) (hwriter ▸ hlast) m
    rw [hvalue, hvalue']
    have hlt : b'.length < n := by
      rw [← hn, List.length_append, List.length_cons]
      omega
    have hsplit' : initial = b' ++ w' :: (c' ++ v' :: after') := by
      rw [h', List.append_assoc, List.cons_append]
    have hsplit : vs = b ++ w :: (c ++ v :: after) := by
      rw [h, List.append_assoc, List.cons_append]
    exact ih b'.length hlt hsplit' hsplit (hw.trans hw'.symm) rfl

theorem Faithful.stepAll_eq (m : Memory V) : stepAll A p vs m = stepAll A p initial m := by
  funext a
  have hwriter := hfaithful.final a
  cases hlast : lastWriter vs a with
  | none => rw [stepAll_of_lastWriter_eq_none hlast, stepAll_of_lastWriter_eq_none (hwriter ▸ hlast)]
  | some x =>
    obtain ⟨before, v, after, h, hv, hvalue⟩ := stepAll_of_lastWriter_eq_some (A := A) (p := p) hlast m
    obtain ⟨before', v', after', h', hv', hvalue'⟩ :=
      stepAll_of_lastWriter_eq_some (A := A) (p := p) (hwriter ▸ hlast) m
    rw [hvalue, hvalue']
    exact hfaithful.result_eq hinitial hvs m h' h (hv.trans hv'.symm)

end Same

end Flow

end LoopNest
