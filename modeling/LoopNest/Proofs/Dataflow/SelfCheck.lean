import LoopNest.Proofs.Dataflow.Initial

namespace LoopNest

open LoopNest.Flow Kernel

variable {p : Program}

theorem Conflicts.recordAll_nil (as : List (Location × Bool)) (c : Conflicts) : recordAll p [] as c = .ok c := by
  induction as with
  | nil => rfl
  | cons a as ih => exact ih

namespace Dataflow

structure Extends (d d' : Dataflow) : Prop where
  size : d.computationOf.size ≤ d'.computationOf.size
  ids : ∀ (x : InstanceId) (n : Nat), d.ids[x]? = some n → d'.ids[x]? = some n
  sources : ∀ n < d.sources.size, d'.sources.getD n [] = d.sources.getD n []
  grown : d.sources.size ≤ d'.sources.size

theorem Extends.refl (d : Dataflow) : Extends d d :=
  ⟨Nat.le_refl _, fun _ _ h => h, fun _ _ => rfl, Nat.le_refl _⟩

theorem Extends.trans {d d' d'' : Dataflow} (h : Extends d d') (h' : Extends d' d'') : Extends d d'' where
  size := Nat.le_trans h.size h'.size
  ids x n hn := h'.ids x n (h.ids x n hn)
  sources n hn := (h'.sources n (Nat.lt_of_lt_of_le hn h.grown)).trans (h.sources n hn)
  grown := Nat.le_trans h.grown h'.grown

theorem extends_add {d : Dataflow} {v : Visit} (hfresh : d.ids.contains v.id = false) : Extends d (d.add v) where
  size := by simp [add]
  ids x n hn := by
    have hne : v.id ≠ x := by
      rintro rfl
      rw [Std.HashMap.contains_eq_isSome_getElem?, hn] at hfresh
      cases hfresh
    rw [add, Std.HashMap.getElem?_insert]
    simp [hne, hn]
  sources n hn := by
    have hne : n ≠ d.sources.size := by omega
    simp [add, Array.getD_eq_getD_getElem?, Array.getElem?_push, hne]
  grown := by simp [add]

theorem extends_of_visitAll {t : List Instance} {d d' : Dataflow} (h : visitAll (visit p) t d = .ok d') :
    Extends d d' := by
  induction t generalizing d with
  | nil =>
    cases h
    exact .refl _
  | cons i t ih =>
    obtain ⟨next, hn, h⟩ := bind_eq_ok.1 h
    obtain ⟨v, -, -, hfresh, rfl⟩ := visit_eq_ok.1 hn
    exact (extends_add hfresh).trans (ih h)

structure Mirrors (d e : Dataflow) (s : Progress) : Prop where
  aligned : e.sources.size = e.computationOf.size
  size : s.executed.size = d.computationOf.size
  executed : ∀ n < d.computationOf.size, s.executed.getD n false = decide (n < e.computationOf.size)
  writers : s.writers = e.writers

theorem mirrors_start (d : Dataflow) (c : Conflicts) :
    Mirrors d (empty p) { executed := Array.replicate d.instances false
                          writers := Writers.empty p
                          conflicts := c } where
  aligned := rfl
  size := Array.size_replicate
  executed n hn := by
    simp [Array.getD_eq_getD_getElem?, instances, hn, empty]
  writers := rfl

theorem mirrors_advance {d e : Dataflow} {s : Progress} (h : Mirrors d e s) {v : Visit}
    (hsize : (e.add v).computationOf.size ≤ d.computationOf.size) (hsmall : d.computationOf.size ≤ 4294967296)
    (c : Conflicts) : Mirrors d (e.add v) (advance s v e.computationOf.size c) := by
  have hlt : e.computationOf.size < d.computationOf.size := by simpa [add, Nat.succ_le_iff] using hsize
  constructor
  · simp [add, h.aligned]
  · rw [advance, Array.size_setIfInBounds, h.size]
  · intro n hn
    rw [advance, getD_setIfInBounds (by rw [h.size]; exact hlt), h.executed n hn, add, Array.size_push]
    by_cases heq : e.computationOf.size = n
    · rw [if_pos heq]
      simp [← heq]
    · rw [if_neg heq]
      exact decide_eq_decide.2 (by omega)
  · have hnumber : instanceNumber e.computationOf.size = e.computationOf.size :=
      Nat.mod_eq_of_lt (Nat.lt_of_lt_of_le hlt hsmall)
    rw [advance, add, h.writers, hnumber]

theorem checkVisit_of_visit {d e e' : Dataflow} {s : Progress} {i : Instance} (h : Mirrors d e s)
    (hsmall : d.computationOf.size ≤ 4294967296) (hsequential : i.concurrent = [])
    (hvisit : visit p i e = .ok e') (hrest : Extends e' d) :
    ∃ s', d.checkVisit p i s = .ok s' ∧ Mirrors d e' s' := by
  obtain ⟨v, hv, hsome, hfresh, rfl⟩ := visit_eq_ok.1 hvisit
  obtain ⟨point, reads, store, hpoint, hreads, hstore, rfl⟩ := Instance.visit_eq_ok.1 hv
  have hlt : e.computationOf.size < d.computationOf.size := by simpa [add, Nat.succ_le_iff] using hrest.size
  have hnumber : instanceNumber e.computationOf.size = e.computationOf.size :=
    Nat.mod_eq_of_lt (Nat.lt_of_lt_of_le hlt hsmall)
  have hid : d.ids[(i.statement.computation, point)]? = some e.computationOf.size := by
    refine hrest.ids _ _ ?_
    rw [add, Std.HashMap.getElem?_insert_self, hnumber]
  have hsources : d.sources.getD e.computationOf.size [] = reads.map s.writers.writer := by
    rw [← h.aligned, hrest.sources _ (by simp [add]), h.writers]
    simp [add, Array.getD_eq_getD_getElem?]
  have hexecuted : s.executed.getD e.computationOf.size false = false := by
    rw [h.executed _ hlt]
    simp
  refine ⟨_, ?_, mirrors_advance h hrest.size hsmall s.conflicts⟩
  rw [checkVisit_eq_record hv hsome hid hexecuted hsources, hsequential, Conflicts.recordAll_nil]
  rfl

theorem exists_run_of_record {d e : Dataflow} {s : Progress} {t : List Instance} (h : Mirrors d e s)
    (hsmall : d.computationOf.size ≤ 4294967296) (hsequential : ∀ i ∈ t, i.concurrent = [])
    (hrun : visitAll (visit p) t e = .ok d) :
    ∃ s', visitAll (d.checkVisit p) t s = .ok s' ∧ Mirrors d d s' := by
  induction t generalizing e s with
  | nil =>
    cases hrun
    exact ⟨s, rfl, h⟩
  | cons i t ih =>
    obtain ⟨e', hvisit, hrun⟩ := bind_eq_ok.1 hrun
    obtain ⟨hi, ht⟩ := List.forall_mem_cons.1 hsequential
    obtain ⟨next, hnext, hmirrors⟩ := checkVisit_of_visit h hsmall hi hvisit (extends_of_visitAll hrun)
    obtain ⟨s', hs', hdone⟩ := ih hmirrors ht hrun
    exact ⟨s', bind_eq_ok.2 ⟨next, hnext, hs'⟩, hdone⟩

theorem check_of_record {k : Kernel} {d : Dataflow} (hd : ofKernel p k = .ok d)
    (hsequential : ∀ i ∈ k.instances, i.concurrent = []) (hsmall : d.computationOf.size ≤ 4294967296) :
    d.check p k = .ok () := by
  obtain ⟨t, ht, hrun⟩ := (walk_eq_ok_iff (visit p)).1 hd
  rw [← trace_eq ht] at hsequential
  obtain ⟨s, hs, hdone⟩ := exists_run_of_record (mirrors_start d (Conflicts.empty k.loops p.buffers.length))
    hsmall hsequential hrun
  simp only [check, bind_eq_ok, walk_eq_ok_iff]
  refine ⟨s, ⟨t, ht, hs⟩, ?_⟩
  have hexecuted : ∀ n < s.executed.size, s.executed.getD n false = true := by
    intro n hn
    rw [hdone.size] at hn
    simpa [hn] using hdone.executed n hn
  rw [(missing_eq_nil hdone.size).2 hexecuted, hdone.writers]
  have hsame : firstDifference d.writers d.writers = none := by
    rw [firstDifference, position?_eq_findIdx?, List.findIdx?_eq_none_iff]
    intro w hw
    rw [List.zip_eq_zipWith, List.zipWith_self] at hw
    obtain ⟨cells, -, rfl⟩ := List.mem_map.1 hw
    simp
  rw [hsame]
  rfl

section Words

variable {d : Dataflow} (hd : ∀ (x : InstanceId) (n : Nat), d.ids[x]? = some n → n < 4294967296)
include hd

theorem executed_of_checkVisit {i : Instance} {s s' : Progress} (h : d.checkVisit p i s = .ok s')
    (hs : ∀ n, 4294967296 ≤ n → s.executed.getD n false = false) :
    s'.executed.size = s.executed.size ∧ ∀ n, 4294967296 ≤ n → s'.executed.getD n false = false := by
  obtain ⟨point, -, h⟩ := bind_eq_ok.1 h
  split at h
  · cases h
  · next number hnumber =>
    split at h
    · cases h
    · obtain ⟨next, hnext, h⟩ := bind_eq_ok.1 h
      obtain ⟨offset, -, h⟩ := bind_eq_ok.1 h
      obtain ⟨c, -, h⟩ := bind_eq_ok.1 h
      cases h
      have hlt := hd _ number hnumber
      simp only [checkReads_executed hnext]
      refine ⟨Array.size_setIfInBounds, fun n hn => ?_⟩
      have hne : number ≠ n := by omega
      simpa [Array.getD_eq_getD_getElem?, Array.getElem?_setIfInBounds, hne] using hs n hn

theorem executed_of_run {t : List Instance} {s s' : Progress} (h : visitAll (d.checkVisit p) t s = .ok s')
    (hs : ∀ n, 4294967296 ≤ n → s.executed.getD n false = false) :
    s'.executed.size = s.executed.size ∧ ∀ n, 4294967296 ≤ n → s'.executed.getD n false = false := by
  induction t generalizing s with
  | nil =>
    cases h
    exact ⟨rfl, hs⟩
  | cons i t ih =>
    obtain ⟨next, hn, h⟩ := bind_eq_ok.1 h
    obtain ⟨hsize, hnext⟩ := executed_of_checkVisit hd hn hs
    obtain ⟨hsize', hlast⟩ := ih h hnext
    exact ⟨hsize'.trans hsize, hlast⟩

theorem size_le_of_check {k : Kernel} (h : d.check p k = .ok ()) : d.computationOf.size ≤ 4294967296 := by
  simp only [check, bind_eq_ok, walk_eq_ok_iff] at h
  obtain ⟨s, ⟨t, -, hrun⟩, h⟩ := h
  obtain ⟨hsize, hunmarked⟩ := executed_of_run hd hrun fun n _ => by
    by_cases hn : n < d.instances <;> simp [Array.getD_eq_getD_getElem?, hn]
  rw [Array.size_replicate] at hsize
  split at h
  · cases h
  · next hmissing =>
    by_contra hmore
    have hmarked := (missing_eq_nil hsize).1 hmissing 4294967296 (by rw [hsize, instances]; omega)
    rw [hunmarked 4294967296 (Nat.le_refl _)] at hmarked
    cases hmarked

end Words

theorem ids_lt_of_visitAll {t : List Instance} {d d' : Dataflow} (h : visitAll (visit p) t d = .ok d')
    (hd : ∀ (x : InstanceId) (n : Nat), d.ids[x]? = some n → n < 4294967296) :
    ∀ (x : InstanceId) (n : Nat), d'.ids[x]? = some n → n < 4294967296 := by
  induction t generalizing d with
  | nil =>
    cases h
    exact hd
  | cons i t ih =>
    obtain ⟨next, hn, h⟩ := bind_eq_ok.1 h
    obtain ⟨v, -, -, -, rfl⟩ := visit_eq_ok.1 hn
    refine ih h fun x n hx => ?_
    rw [add, Std.HashMap.getElem?_insert] at hx
    split at hx
    · cases hx
      exact Nat.mod_lt _ (by decide)
    · exact hd x n hx

end Dataflow

namespace Context

theorem size_le_of_checkLegal {roots : List Node} (h : (ofProgram p).checkLegal roots = .ok ()) :
    ∃ d, Dataflow.ofProgram p = .ok d ∧ d.computationOf.size ≤ 4294967296 := by
  obtain ⟨d, k', hd, -, hcheck⟩ := checkLegal_eq_ok.1 h
  have hrecord := hd
  simp only [Dataflow.ofProgram, bind_eq_ok, lift_eq_ok, Outcome.mapRefusal_eq_ok] at hrecord
  obtain ⟨initial, -, k, -, hrecord⟩ := hrecord
  obtain ⟨t, -, hrun⟩ := (walk_eq_ok_iff (Dataflow.visit p)).1 hrecord
  have hwords := Dataflow.ids_lt_of_visitAll hrun fun x n hx => by simp [Dataflow.empty] at hx
  exact ⟨d, hd, Dataflow.size_le_of_check hwords hcheck⟩

theorem checkLegal_initial_of_small {initial : List Node} (hn : p.nesting = .ok initial)
    (huntagged : Node.UntaggedAll initial) {d : Dataflow} (hd : Dataflow.ofProgram p = .ok d)
    (hsmall : d.computationOf.size ≤ 4294967296) : (ofProgram p).checkLegal initial = .ok () := by
  have hrecord := hd
  simp only [Dataflow.ofProgram, bind_eq_ok, lift_eq_ok, Outcome.mapRefusal_eq_ok] at hrecord
  obtain ⟨initial', hn', k, hk, hrecord⟩ := hrecord
  cases hn.symm.trans hn'
  exact checkLegal_eq_ok.2
    ⟨d, k, hd, hk, Dataflow.check_of_record hrecord (concurrent_of_tree hk huntagged) hsmall⟩

end Context

end LoopNest
