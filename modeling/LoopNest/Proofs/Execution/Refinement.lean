import LoopNest.Proofs.Execution.Memory
import LoopNest.Proofs.Kernel.Exact
import LoopNest.Proofs.Program.Cells

namespace LoopNest

open LoopNest.Flow Kernel

def Instance.Computes (i : Instance) : Prop :=
  ∀ f ∈ i.statement.value.forms, ∃ n, f.eval i.env = .ok n

namespace KernelExpr

variable {V : Type} {A : Arithmetic V} {loaded : Array V} {env : Env} {e : KernelExpr}

theorem exists_eval (h : ∀ f ∈ e.forms, ∃ n, f.eval env = .ok n) :
    ∃ v, e.eval A loaded env = .ok v := by
  induction e with
  | const c => exact ⟨_, rfl⟩
  | slot f =>
    obtain ⟨n, hn⟩ := h f List.mem_cons_self
    exact ⟨_, bind_eq_ok.2 ⟨n, hn, rfl⟩⟩
  | load n => exact ⟨_, rfl⟩
  | binary op l r ihl ihr =>
    obtain ⟨x, hx⟩ := ihl fun f hf => h f (List.mem_append_left _ hf)
    obtain ⟨y, hy⟩ := ihr fun f hf => h f (List.mem_append_right _ hf)
    exact ⟨_, bind_eq_ok.2 ⟨x, hx, bind_eq_ok.2 ⟨y, hy, rfl⟩⟩⟩
  | neg e ih =>
    obtain ⟨x, hx⟩ := ih h
    exact ⟨_, bind_eq_ok.2 ⟨x, hx, rfl⟩⟩
  | call f e ih =>
    obtain ⟨x, hx⟩ := ih h
    exact ⟨_, bind_eq_ok.2 ⟨x, hx, rfl⟩⟩

theorem computes_of_eval {v : V} (h : e.eval A loaded env = .ok v) :
    ∀ f ∈ e.forms, ∃ n, f.eval env = .ok n := by
  induction e generalizing v with
  | const c => exact fun _ hf => absurd hf List.not_mem_nil
  | slot f =>
    obtain ⟨n, hn, -⟩ := bind_eq_ok.1 h
    intro g hg
    exact ⟨n, List.mem_singleton.1 hg ▸ hn⟩
  | load n => exact fun _ hf => absurd hf List.not_mem_nil
  | binary op l r ihl ihr =>
    obtain ⟨x, hx, h⟩ := bind_eq_ok.1 h
    obtain ⟨y, hy, -⟩ := bind_eq_ok.1 h
    intro f hf
    rcases List.mem_append.1 hf with hf | hf
    · exact ihl hx f hf
    · exact ihr hy f hf
  | neg e ih =>
    obtain ⟨x, hx, -⟩ := bind_eq_ok.1 h
    exact ih hx
  | call f e ih =>
    obtain ⟨x, hx, -⟩ := bind_eq_ok.1 h
    exact ih hx

end KernelExpr

namespace Interpreter

variable {V : Type} {A : Arithmetic V} {p : Program}

def memory (A : Arithmetic V) (c : Contents V) : Memory V
  | (b, some n) => (c.getD b #[]).getD n A.zero
  | (_, none) => A.zero

theorem contents_ext {c c' : Contents V} (hc : p.Shaped c) (hc' : p.Shaped c')
    (h : memory A c = memory A c') : c = c' :=
  hc.ext hc' fun b n => congrFun h (b, some n)

theorem offsetIn_eq_ok {i : Instance} {place : Place} {n : Nat} :
    offsetIn p i place = .ok n ↔ place.location i.env = .ok (place.buffer, some n) :=
  Place.location_eq_some (fun _ => rfl) nofun

theorem offsetIn_of_inside {i : Instance} {place : Place} {a : Location}
    (ha : place.location i.env = .ok a) (hin : Inside p a) :
    ∃ n, offsetIn p i place = .ok n ∧ a = (place.buffer, some n) := by
  obtain ⟨o, ho, rfl⟩ := Place.location_eq_ok.1 ha
  obtain ⟨-, n, -, hn, -⟩ := hin
  cases hn
  exact ⟨n, offsetIn_eq_ok.2 ha, rfl⟩

theorem readAt_of_inside {c : Contents V} (hc : p.Shaped c) {b n : Nat} (hin : Inside p (b, some n)) :
    readAt c b n = .ok (memory A c (b, some n)) := by
  obtain ⟨buffer, m, hb, hm, hlt⟩ := hin
  cases hm
  have hb' : b < c.size := hc.lt_size hb
  have hsize := hc.entries b buffer hb
  have hn : n < (c.getD b #[]).size := hsize.symm ▸ hlt
  rw [Array.getD_eq_getD_getElem?, Array.getElem?_eq_getElem hb', Option.getD_some] at hn
  simp [readAt, memory, Array.getD_eq_getD_getElem?, hb', hn]

theorem writeAt_of_inside {c : Contents V} (hc : p.Shaped c) {b n : Nat} (hin : Inside p (b, some n))
    (v : V) : writeAt c b n v = .ok (setCell c b n v) := by
  obtain ⟨buffer, m, hb, hm, hlt⟩ := hin
  cases hm
  have hb' : b < c.size := hc.lt_size hb
  have hsize := hc.entries b buffer hb
  rw [Array.getD_eq_getD_getElem?, Array.getElem?_eq_getElem hb', Option.getD_some] at hsize
  rw [writeAt, dif_pos hb', if_pos (by rw [hsize]; exact hlt)]
  rfl

theorem memory_setCell {c : Contents V} (hc : p.Shaped c) {b n : Nat} (hin : Inside p (b, some n)) (v : V) :
    memory A (setCell c b n v) = Function.update (memory A c) (b, some n) v := by
  obtain ⟨buffer, m, hb, hm, hlt⟩ := hin
  cases hm
  funext ⟨b', o⟩
  cases o with
  | none => simp [memory]
  | some n' =>
    simp only [memory, hc.getD_setCell hb hlt, Function.update_apply, Prod.mk.injEq, Option.some.injEq,
      eq_comm (a := b), eq_comm (a := n)]

theorem loadAll_of_inside {c : Contents V} (hc : p.Shaped c) {i : Instance} {places : List Place}
    {reads : List Location} (hr : Place.locations i.env places = .ok reads)
    (hin : ∀ a ∈ reads, Inside p a) (loaded : Array V) :
    loadAll p c i places loaded = .ok (loaded ++ (reads.map (memory A c)).toArray) := by
  induction places generalizing reads loaded with
  | nil =>
    cases hr
    simp [loadAll]
  | cons place places ih =>
    obtain ⟨a, rest, ha, hrest, rfl⟩ := bind₂_eq_ok.1 hr
    obtain ⟨n, hn, rfl⟩ := offsetIn_of_inside ha (hin a List.mem_cons_self)
    have hread := readAt_of_inside (A := A) hc (hin _ List.mem_cons_self)
    rw [loadAll, hn, ok_bind, hread, lift_ok, ok_bind,
      ih hrest fun b hb => hin b (List.mem_cons_of_mem _ hb)]
    simp

section Visit

variable {c : Contents V} (hc : p.Shaped c) {i : Instance} (hi : i.statement.IsOf p) {v : Visit}
  (hv : i.visit = .ok v) (hin : ∀ a ∈ v.locations, Inside p a)
include hc hv hin

theorem exists_visit (hi : i.statement.IsOf p) (hcomputes : i.Computes) :
    ∃ c', visit A p i c = .ok c' ∧ p.Shaped c' ∧ memory A c' = v.step A p (memory A c) := by
  obtain ⟨point, reads, store, hp, hr, hs, rfl⟩ := Instance.visit_eq_ok.1 hv
  obtain ⟨n, hn, rfl⟩ := offsetIn_of_inside hs (hin _ List.mem_cons_self)
  have hstore := hin _ List.mem_cons_self
  have hloads := loadAll_of_inside (A := A) hc hr (fun a ha => hin a (List.mem_cons_of_mem _ ha)) #[]
  obtain ⟨x, hx⟩ : ∃ x, i.statement.value.eval A (#[] ++ (reads.map (memory A c)).toArray) i.env = .ok x :=
    KernelExpr.exists_eval hcomputes
  obtain ⟨scope, l, hl⟩ := hi
  obtain ⟨computation, hfrom⟩ := Numbering.fromLeaf_of_statement hl
  have hvalue := Numbering.value_expr hfrom.value hx
  refine ⟨_, ?_, hc.setCell i.statement.store.buffer n
    (A.round (dtypeOf p i.statement.store.buffer) x), ?_⟩
  · rw [visit, hloads, ok_bind, hx, lift_ok, ok_bind, hn, ok_bind, writeAt_of_inside hc hstore]
    rfl
  · rw [memory_setCell hc hstore, Visit.step, Visit.result]
    simp only [hfrom.same, hfrom.computation]
    rw [hvalue, Numbering.Bindings.valueOf_of_point hp]
    simp [Array.getD_eq_getD_getElem?, List.getD_eq_getElem?_getD]

theorem visit_eq_overflow (hcomputes : ¬ i.Computes) : visit A p i c = .error (.fault .overflow) := by
  obtain ⟨point, reads, store, hp, hr, hs, rfl⟩ := Instance.visit_eq_ok.1 hv
  have hloads := loadAll_of_inside (A := A) hc hr (fun a ha => hin a (List.mem_cons_of_mem _ ha)) #[]
  rw [visit, hloads, ok_bind]
  cases hx : i.statement.value.eval A (#[] ++ (reads.map (memory A c)).toArray) i.env with
  | ok x => exact absurd (KernelExpr.computes_of_eval hx) hcomputes
  | error e =>
    cases KernelExpr.eval_failsOnly (fun f _ => KernelForm.eval_failsOnly f) _ hx
    rfl

end Visit

theorem exists_visitAll {t : List Instance} (ht : ∀ i ∈ t, i.statement.IsOf p) {vs : List Visit}
    (hv : Instance.visits t = .ok vs) (hin : ∀ v ∈ vs, ∀ a ∈ v.locations, Inside p a)
    (hcomputes : ∀ i ∈ t, i.Computes) {c : Contents V} (hc : p.Shaped c) :
    ∃ c', visitAll (visit A p) t c = .ok c' ∧ p.Shaped c' ∧
      memory A c' = Visit.stepAll A p vs (memory A c) := by
  induction t generalizing vs c with
  | nil =>
    cases hv
    exact ⟨c, rfl, hc, rfl⟩
  | cons i t ih =>
    obtain ⟨v, rest, hiv, hr, rfl⟩ := Instance.visits_cons_eq_ok.1 hv
    obtain ⟨next, hn, hshaped, hmemory⟩ := exists_visit (A := A) hc hiv (hin v List.mem_cons_self)
      (ht i List.mem_cons_self) (hcomputes i List.mem_cons_self)
    obtain ⟨c', hc', hshaped', hmemory'⟩ := ih (fun j hj => ht j (List.mem_cons_of_mem i hj)) hr
      (fun w hw => hin w (List.mem_cons_of_mem v hw)) (fun j hj => hcomputes j (List.mem_cons_of_mem i hj))
      hshaped
    refine ⟨c', bind_eq_ok.2 ⟨next, hn, hc'⟩, hshaped', ?_⟩
    rw [hmemory', hmemory, Visit.stepAll_cons]

theorem visitAll_eq_overflow {t : List Instance} (ht : ∀ i ∈ t, i.statement.IsOf p) {vs : List Visit}
    (hv : Instance.visits t = .ok vs) (hin : ∀ v ∈ vs, ∀ a ∈ v.locations, Inside p a)
    (hcomputes : ¬ ∀ i ∈ t, i.Computes) {c : Contents V} (hc : p.Shaped c) :
    visitAll (visit A p) t c = .error (.fault .overflow) := by
  induction t generalizing vs c with
  | nil => exact absurd (fun _ h => absurd h List.not_mem_nil) hcomputes
  | cons i t ih =>
    obtain ⟨v, rest, hiv, hr, rfl⟩ := Instance.visits_cons_eq_ok.1 hv
    rw [visitAll_cons]
    by_cases hi : i.Computes
    · obtain ⟨next, hn, hshaped, -⟩ := exists_visit (A := A) hc hiv (hin v List.mem_cons_self)
        (ht i List.mem_cons_self) hi
      rw [hn, ok_bind]
      refine ih (fun j hj => ht j (List.mem_cons_of_mem i hj)) hr
        (fun w hw => hin w (List.mem_cons_of_mem v hw)) (fun h => hcomputes ?_) hshaped
      exact List.forall_mem_cons.2 ⟨hi, h⟩
    · rw [visit_eq_overflow (A := A) hc hiv (hin v List.mem_cons_self) hi]
      rfl

theorem exists_initialContents_of_checkSizes {i : Inputs V} {bs : List Buffer}
    (h : i.checkSizes bs = .ok ()) : ∃ values, initialContents A i bs = .ok values ∧
      List.Forall₂ (fun b (v : Array V) => v.size = b.volume) bs values := by
  induction bs with
  | nil => exact ⟨[], rfl, .nil⟩
  | cons b bs ih =>
    rw [Inputs.checkSizes] at h
    split at h
    · next hkind =>
      obtain ⟨values, hvalues, hsizes⟩ := ih h
      refine ⟨Array.replicate b.volume A.zero :: values, ?_, .cons Array.size_replicate hsizes⟩
      rw [initialContents, if_neg hkind, ok_bind, hvalues]
      rfl
    · next hkind =>
      split at h
      · cases h
      · next vs hvs =>
        split at h
        · cases h
        · next hsize =>
          obtain ⟨values, hvalues, hsizes⟩ := ih h
          refine ⟨vs :: values, ?_, .cons (Decidable.not_not.1 hsize) hsizes⟩
          rw [initialContents, if_pos (Decidable.not_not.1 hkind), hvs, Outcome.require_some, ok_bind, hvalues]
          rfl

theorem exists_initialContents {i : Inputs V} (h : i.validate p = .ok ()) :
    ∃ values, initialContents A i p.buffers = .ok values ∧ p.Shaped values.toArray := by
  obtain ⟨-, -, h⟩ := bind_eq_ok.1 h
  obtain ⟨values, hvalues, hsizes⟩ := exists_initialContents_of_checkSizes (A := A) h
  refine ⟨values, hvalues, by simpa using hsizes.length_eq.symm, ?_⟩
  intro b buffer hb
  obtain ⟨hlt, rfl⟩ := List.getElem?_eq_some_iff.1 hb
  have hlt' : b < values.length := hsizes.length_eq ▸ hlt
  simpa [Array.getD_eq_getD_getElem?, hlt'] using hsizes.get hlt hlt'

end Interpreter

end LoopNest
