import LoopNest.Proofs.Dataflow.Conflicts

namespace LoopNest

open LoopNest.Flow Touch Kernel

namespace Visit

def accesses (v : Visit) : List (Location × Bool) := v.reads.map (·, false) ++ [(v.store, true)]

def touches (v : Visit) : List Touch := Conflicts.allTouches v.concurrent v.accesses

end Visit

namespace Dataflow

variable {p : Program} {d : Dataflow} {i : Instance}

theorem exists_of_checkReads_cons {place : Place} {places : List Place} {source : Option Nat}
    {sources : List (Option Nat)} {s s' : Progress}
    (h : checkReads p i (place :: places) (source :: sources) s = .ok s') :
    ∃ n c, place.location i.env = .ok (place.buffer, some n) ∧ source = s.writers.writer (place.buffer, some n) ∧
      s.conflicts.record p place.buffer (volumeOf p place.buffer) n false i.concurrent = .ok c ∧
      checkReads p i places sources ⟨s.executed, s.writers, c⟩ = .ok s' := by
  rw [checkReads] at h
  simp only [bind_eq_ok, offsetIn_eq_ok] at h
  obtain ⟨n, hn, h⟩ := h
  split at h
  · cases h
  · next hsource =>
    obtain ⟨c, hc, h⟩ := bind_eq_ok.1 h
    exact ⟨n, c, hn, (not_not.1 hsource).symm, hc, h⟩

theorem checkReads_eq_record {places : List Place} {reads : List Location}
    (hr : Place.locations i.env places = .ok reads) (hsome : ∀ a ∈ reads, a.2.isSome) (s : Progress) :
    checkReads p i places (reads.map s.writers.writer) s =
      (do let c ← Conflicts.recordAll p i.concurrent (reads.map (·, false)) s.conflicts
          return ⟨s.executed, s.writers, c⟩) := by
  obtain ⟨executed, writers, conflicts⟩ := s
  induction places generalizing reads conflicts with
  | nil =>
    cases hr
    rfl
  | cons place places ih =>
    obtain ⟨a, rest, ha, hrest, rfl⟩ := bind₂_eq_ok.1 hr
    obtain ⟨hfirst, hothers⟩ := List.forall_mem_cons.1 hsome
    obtain ⟨n, rfl⟩ := Place.exists_offset ha hfirst
    have hsource : ¬ writers.last place.buffer n ≠ writers.writer (place.buffer, some n) := not_not.2 rfl
    rw [List.map_cons, checkReads, offsetIn_eq_ok.2 ha, ok_bind, if_neg hsource, List.map_cons,
      Conflicts.recordAll, bind_assoc]
    exact bind_congr fun c => ih hrest hothers c

theorem checkReads_eq_ok {places : List Place} {sources : List (Option Nat)}
    (hlen : places.length = sources.length) {s s' : Progress} :
    checkReads p i places sources s = .ok s' ↔ ∃ reads c, Place.locations i.env places = .ok reads ∧
      (∀ a ∈ reads, a.2.isSome) ∧ sources = reads.map s.writers.writer ∧
      Conflicts.recordAll p i.concurrent (reads.map (·, false)) s.conflicts = .ok c ∧
      s' = ⟨s.executed, s.writers, c⟩ := by
  constructor
  · intro h
    induction places generalizing sources s with
    | nil =>
      obtain rfl := List.eq_nil_of_length_eq_zero hlen.symm
      cases h
      exact ⟨[], _, rfl, by simp, rfl, rfl, rfl⟩
    | cons place places ih =>
      obtain _ | ⟨source, sources⟩ := sources
      · cases hlen
      obtain ⟨n, next, hn, rfl, hnext, h⟩ := exists_of_checkReads_cons h
      obtain ⟨reads, c, hr, hsome, rfl, hc, rfl⟩ := ih (Nat.succ.inj hlen) h
      refine ⟨(place.buffer, some n) :: reads, c, ?_, List.forall_mem_cons.2 ⟨rfl, hsome⟩, rfl, ?_, rfl⟩
      · exact bind₂_eq_ok.2 ⟨_, reads, hn, hr, rfl⟩
      · exact bind_eq_ok.2 ⟨next, hnext, hc⟩
  · rintro ⟨reads, c, hr, hsome, rfl, hc, rfl⟩
    rw [checkReads_eq_record hr hsome, hc]
    rfl

def advance (s : Progress) (v : Visit) (id : Nat) (c : Conflicts) : Progress :=
  { executed := s.executed.setIfInBounds id true
    writers := s.writers.write v.store.1 (v.store.2.getD 0) id
    conflicts := c }

theorem checkVisit_eq_record {v : Visit} (hv : i.visit = .ok v) (hsome : ∀ a ∈ v.locations, a.2.isSome) {id : Nat}
    (hid : d.ids[v.id]? = some id) {s : Progress} (hexecuted : s.executed.getD id false = false)
    (hsources : d.sources.getD id [] = v.reads.map s.writers.writer) :
    d.checkVisit p i s =
      (do let c ← Conflicts.recordAll p v.concurrent v.accesses s.conflicts
          return advance s v id c) := by
  obtain ⟨point, reads, store, hpoint, hr, hs, rfl⟩ := Instance.visit_eq_ok.1 hv
  obtain ⟨hstore, hreads⟩ := List.forall_mem_cons.1 hsome
  obtain ⟨n, rfl⟩ := Place.exists_offset hs hstore
  obtain ⟨executed, writers, conflicts⟩ := s
  simp only at hid hsources hexecuted
  have hcheck := checkReads_eq_record (p := p) hr hreads ⟨executed.setIfInBounds id true, writers, conflicts⟩
  simp only at hcheck
  simp only [checkVisit, hpoint, lift_ok, ok_bind, hid, hexecuted, Bool.false_eq_true, if_false, hsources,
    hcheck, Visit.accesses, Conflicts.recordAll_append, bind_assoc, offsetIn_eq_ok.2 hs, pure_bind]
  refine bind_congr fun c => ?_
  simp only [Conflicts.recordAll, bind_assoc, ok_bind]
  rfl

theorem checkVisit_eq_ok (hlen : ∀ point id, i.point = .ok point →
      d.ids[(i.statement.computation, point)]? = some id →
      i.statement.reads.length = (d.sources.getD id []).length) {s s' : Progress} :
    d.checkVisit p i s = .ok s' ↔ ∃ v id c, i.visit = .ok v ∧ (∀ a ∈ v.locations, a.2.isSome) ∧
      d.ids[v.id]? = some id ∧ s.executed.getD id false = false ∧
      d.sources.getD id [] = v.reads.map s.writers.writer ∧
      Conflicts.recordAll p v.concurrent v.accesses s.conflicts = .ok c ∧ s' = advance s v id c := by
  constructor
  · intro h
    simp only [checkVisit, bind_eq_ok, lift_eq_ok] at h
    obtain ⟨point, hp, h⟩ := h
    split at h
    · cases h
    · next id hid =>
      split at h
      · cases h
      · next hexec =>
        simp only [bind_eq_ok, checkReads_eq_ok (hlen point id hp hid), offsetIn_eq_ok] at h
        obtain ⟨_, ⟨reads, c, hr, hsome, hsources, hc, rfl⟩, n, hn, c', hc', h⟩ := h
        cases h
        refine ⟨_, id, c', Instance.visit_eq_ok.2 ⟨point, reads, _, hp, hr, hn, rfl⟩,
          List.forall_mem_cons.2 ⟨rfl, hsome⟩, hid, by simpa using hexec, hsources, ?_, rfl⟩
        rw [Visit.accesses, Conflicts.recordAll_append]
        exact bind_eq_ok.2 ⟨c, hc, bind_eq_ok.2 ⟨c', hc', rfl⟩⟩
  · rintro ⟨v, id, c, hv, hsome, hid, hexecuted, hsources, hc, rfl⟩
    rw [checkVisit_eq_record hv hsome hid hexecuted hsources, hc]
    rfl

end Dataflow

end LoopNest
