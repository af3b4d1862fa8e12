import LoopNest.Proofs.Kernel.NamedWalk

namespace LoopNest

open LoopNest.Flow Kernel

namespace Illegality

/-- Some instance is new, repeated or gone, or a name has lost its loop. -/
def LosesWork : Illegality → Prop
  | outsideDomain _ => True
  | duplicated _ => True
  | dropped _ _ => True
  | dependenceViolated _ _ => False
  | outputChanged _ => False
  | concurrentConflict _ _ => False
  | outOfBounds _ _ => False
  | numbering _ => True

end Illegality

def Failure.IsConflict : Failure Illegality → Prop
  | .refused (.concurrentConflict _ _) => True
  | _ => False

def Failure.KeepsWork : Failure Illegality → Prop
  | .fault _ => True
  | .refused i => ¬ i.LosesWork

theorem Failure.IsConflict.exists_eq : ∀ {e : Failure Illegality}, e.IsConflict →
    ∃ dim buffer, e = .refused (.concurrentConflict dim buffer)
  | .refused (.concurrentConflict dim buffer), _ => ⟨dim, buffer, rfl⟩

theorem Failure.IsConflict.keepsWork : ∀ e : Failure Illegality, e.IsConflict → e.KeepsWork
  | .refused (.concurrentConflict _ _), _ => id

abbrev KeepsWork {α : Type} (x : Legal α) : Prop := FailsOnly Failure.KeepsWork x

theorem keepsWork_lift {α : Type} (x : Checked α) : KeepsWork (liftM x : Legal α) :=
  FailsOnly.lift fun _ _ => trivial

theorem keepsWork_refuse {α : Type} {i : Illegality} (hi : ¬ i.LosesWork) :
    KeepsWork (Outcome.refuse i : Legal α) := FailsOnly.error hi

theorem Instance.id_of_visit {i : Instance} {v : Visit} (h : i.visit = .ok v) : v.id = i.id := by
  obtain ⟨point, reads, store, hp, -, -, rfl⟩ := Instance.visit_eq_ok.1 h
  exact Instance.point_eq hp

theorem Instance.ids_of_visits {t : List Instance} {vs : List Visit} (h : visits t = .ok vs) :
    vs.map Visit.id = t.map Instance.id := by
  exact traverses_visits.map_eq (fun _ _ hv => id_of_visit hv) h

theorem Kernel.ids_of_visits {k : Kernel} {vs : List Visit} (h : k.visits = .ok vs) :
    vs.map Visit.id = k.instances.map Instance.id := by
  obtain ⟨t, ht, h⟩ := bind_eq_ok.1 h
  rw [Instance.ids_of_visits h, trace_eq ht]

def Failure.OutOfBounds (p : Program) (i : Instance) (places : List Place) : Failure Illegality → Prop
  | .fault f => f = .overflow
  | .refused e => ∃ place ∈ places, place.location i.env = .ok (place.buffer, none) ∧
      e = .outOfBounds (p.computationName i.statement.computation) (p.bufferName place.buffer)

theorem Failure.OutOfBounds.keepsWork {p : Program} {i : Instance} {places : List Place} :
    ∀ e : Failure Illegality, e.OutOfBounds p i places → e.KeepsWork
  | .fault _, _ => trivial
  | .refused _, ⟨_, _, _, h⟩ => by
    rw [h]
    exact id

namespace Dataflow

variable {p : Program}

theorem offsetIn_failsOnly {i : Instance} {places : List Place} {place : Place} (hplace : place ∈ places) :
    FailsOnly (Failure.OutOfBounds p i places) (offsetIn p i place) := by
  have hoffset : FailsOnlyBy .overflow (place.offset i.env) :=
    Place.offset_failsOnly fun f _ => KernelForm.eval_failsOnly f
  refine (FailsOnly.lift hoffset).bind fun o ho => ?_
  cases o with
  | none => exact .error ⟨place, hplace, Place.location_eq_ok.2 ⟨none, lift_eq_ok.1 ho, rfl⟩, rfl⟩
  | some n => exact .ok n

theorem sourcesOf_failsOnly {i : Instance} {places places' : List Place} (hsub : places' ⊆ places) (w : Writers) :
    FailsOnly (Failure.OutOfBounds p i places) (sourcesOf p w i places') := by
  induction places' with
  | nil => exact .ok _
  | cons place places' ih =>
    obtain ⟨hplace, hsub⟩ := List.cons_subset.1 hsub
    exact (offsetIn_failsOnly hplace).bind fun _ _ => (ih hsub).bind fun _ _ => .ok _

theorem visit_failsOnly {i : Instance} {d : Dataflow} (hnew : d.ids.contains i.id = false) :
    FailsOnly (Failure.OutOfBounds p i (i.statement.store :: i.statement.reads)) (visit p i d) := by
  refine (FailsOnly.lift i.point_failsOnly).bind fun point hpoint => ?_
  simp only [Instance.point_eq (lift_eq_ok.1 hpoint), hnew, Bool.false_eq_true, if_false]
  exact (sourcesOf_failsOnly (List.subset_cons_self _ _) _).bind fun _ _ =>
    (offsetIn_failsOnly List.mem_cons_self).bind fun _ _ => .ok _

theorem offsetIn_keepsWork (i : Instance) (place : Place) : KeepsWork (offsetIn p i place) :=
  fun e h => Failure.OutOfBounds.keepsWork e (offsetIn_failsOnly (List.mem_singleton_self place) e h)

section Record

theorem contains_of_visitAll {t : List Instance} {d d' : Dataflow} (h : visitAll (visit p) t d = .ok d')
    (x : InstanceId) : d'.ids.contains x = (d.ids.contains x || (t.map Instance.id).contains x) := by
  induction t generalizing d with
  | nil =>
    cases h
    simp
  | cons i t ih =>
    obtain ⟨next, hn, h⟩ := bind_eq_ok.1 h
    obtain ⟨v, hv, -, -, rfl⟩ := visit_eq_ok.1 hn
    rw [ih h, add, Std.HashMap.contains_insert, Instance.id_of_visit hv, List.map_cons, List.contains_cons]
    rw [Bool.or_assoc, Bool.beq_comm]
    cases d.ids.contains x <;> cases (x == i.id) <;> simp

theorem contains_of_distinct {t before after : List Instance} (hdistinct : (t.map Instance.id).Nodup) {i : Instance}
    (hsplit : t = before ++ i :: after) {d : Dataflow} (h : visitAll (visit p) before (empty p) = .ok d) :
    d.ids.contains i.id = false := by
  rw [hsplit] at hdistinct
  have hnew := not_mem_of_nodup_map hdistinct
  rw [contains_of_visitAll h, empty, Std.HashMap.contains_empty, Bool.false_or]
  simpa using hnew

theorem ofKernel_keepsWork {k : Kernel} (hdistinct : (k.instances.map Instance.id).Nodup) :
    KeepsWork (ofKernel p k) := by
  refine walk_failsOnly _ trivial ?_
  intro before i after d hsplit hbefore e he
  exact Failure.OutOfBounds.keepsWork e (visit_failsOnly (contains_of_distinct hdistinct hsplit hbefore) e he)

end Record

section Check

theorem record_failsOnly (buffer volume offset : Nat) (isWrite : Bool) (c : Conflicts) (is : List Iteration) :
    FailsOnly Failure.IsConflict (Conflicts.record p buffer volume offset isWrite c is) := by
  induction is generalizing c with
  | nil => exact .ok _
  | cons i is ih =>
    rw [Conflicts.record_cons]
    split
    · exact .error trivial
    · exact ih _

theorem record_keepsWork (buffer volume offset : Nat) (isWrite : Bool) (c : Conflicts) (is : List Iteration) :
    KeepsWork (Conflicts.record p buffer volume offset isWrite c is) :=
  fun e he => Failure.IsConflict.keepsWork e (record_failsOnly buffer volume offset isWrite c is e he)

theorem checkReads_keepsWork (i : Instance) (places : List Place) (sources : List (Option Nat)) (s : Progress) :
    KeepsWork (checkReads p i places sources s) := by
  induction places generalizing sources s with
  | nil => exact .ok _
  | cons place places ih =>
    cases sources with
    | nil => exact .ok _
    | cons source sources =>
      refine (offsetIn_keepsWork i place).bind fun offset _ => ?_
      split
      · exact keepsWork_refuse id
      · exact (record_keepsWork _ _ _ _ _ _).bind fun _ _ => ih _ _

theorem checkReads_executed {i : Instance} {places : List Place} {sources : List (Option Nat)}
    {s s' : Progress} (h : checkReads p i places sources s = .ok s') : s'.executed = s.executed := by
  induction places generalizing sources s with
  | nil =>
    cases h
    rfl
  | cons place places ih =>
    cases sources with
    | nil =>
      cases h
      rfl
    | cons source sources =>
      obtain ⟨offset, c, -, -, -, h⟩ := exists_of_checkReads_cons h
      rw [ih h]

variable {d : Dataflow} {initial : List Visit} (hd : Records p initial initial d)
include hd

theorem checkVisit_keepsWork {i : Instance} {ids : List InstanceId} {s : Progress}
    (hs : Marks initial ids s.executed) (hknown : i.id ∈ initial.map Visit.id) (hnew : i.id ∉ ids) :
    KeepsWork (d.checkVisit p i s) := by
  have hid : d.ids[i.id]? = some (number initial i.id) := by rw [hd.ids, if_pos hknown]
  have hexecuted : s.executed.getD (number initial i.id) false = false := by
    rw [← Bool.not_eq_true, hs.iff_mem i.id hknown]
    exact hnew
  refine (keepsWork_lift _).bind fun point hpoint => ?_
  simp only [Instance.point_eq (lift_eq_ok.1 hpoint), hid, hexecuted, Bool.false_eq_true, if_false]
  exact (checkReads_keepsWork _ _ _ _).bind fun _ _ => (offsetIn_keepsWork _ _).bind fun _ _ =>
    (record_keepsWork _ _ _ _ _ _).bind fun _ _ => .ok _

theorem marks_of_checkVisit {i : Instance} {ids : List InstanceId} {s s' : Progress}
    (hs : Marks initial ids s.executed) (h : d.checkVisit p i s = .ok s') :
    Marks initial (ids ++ [i.id]) s'.executed := by
  obtain ⟨point, hpoint, h⟩ := bind_eq_ok.1 h
  simp only [Instance.point_eq (lift_eq_ok.1 hpoint)] at h
  split at h
  · cases h
  · next number hnumber =>
    obtain ⟨hknown, rfl⟩ := mem_of_recorded hd hnumber
    split at h
    · cases h
    · obtain ⟨next, hnext, h⟩ := bind_eq_ok.1 h
      obtain ⟨offset, -, h⟩ := bind_eq_ok.1 h
      obtain ⟨c, -, h⟩ := bind_eq_ok.1 h
      cases h
      simp only [checkReads_executed hnext]
      exact hs.snoc hknown

theorem marks_of_visitAll {t : List Instance} {ids : List InstanceId} {s s' : Progress}
    (hs : Marks initial ids s.executed) (h : visitAll (d.checkVisit p) t s = .ok s') :
    Marks initial (ids ++ t.map Instance.id) s'.executed := by
  induction t generalizing ids s with
  | nil =>
    cases h
    simpa using hs
  | cons i t ih =>
    obtain ⟨next, hn, h⟩ := bind_eq_ok.1 h
    have happ : ids ++ (i :: t).map Instance.id = (ids ++ [i.id]) ++ t.map Instance.id := by simp
    rw [happ]
    exact ih (marks_of_checkVisit hd hs hn) h

theorem check_keepsWork {k : Kernel} (h : (k.instances.map Instance.id).Perm (initial.map Visit.id)) :
    KeepsWork (d.check p k) := by
  have hinstances := instances_eq hd
  have hstart : Marks initial [] (Array.replicate d.instances false) := by
    rw [instances, hinstances]
    exact marks_start initial
  apply FailsOnly.bind
  · refine walk_failsOnly _ trivial ?_
    -- every instance of the walk is on record and, since none occurs twice, is not marked yet
    intro before i after s hsplit hbefore
    have hmarks := marks_of_visitAll hd hstart hbefore
    have hdistinct := h.nodup_iff.2 hd.distinct
    have hmem : i ∈ k.instances := by
      rw [hsplit]
      exact List.mem_append_right before List.mem_cons_self
    have hknown := h.subset (List.mem_map_of_mem (f := Instance.id) hmem)
    rw [hsplit] at hdistinct
    exact checkVisit_keepsWork hd hmarks hknown (not_mem_of_nodup_map hdistinct)
  · intro s hs
    -- at the end all are marked, so none is missing
    obtain ⟨t, ht, hrun⟩ := (walk_eq_ok_iff _).1 hs
    have hmarks := marks_of_visitAll hd hstart hrun
    have hall := hmarks.all hd.distinct fun x hx => by
      rw [List.nil_append, trace_eq ht]
      exact h.symm.subset hx
    rw [(missing_eq_nil (by rw [hmarks.size, hinstances])).2 hall]
    simp only
    split
    · exact keepsWork_refuse id
    · exact .ok _

end Check

end Dataflow

end LoopNest
