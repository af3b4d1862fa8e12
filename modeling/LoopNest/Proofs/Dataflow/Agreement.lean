import LoopNest.Proofs.Dataflow.Check

namespace LoopNest

open LoopNest.Flow Touch Kernel

namespace Flow

theorem split_of_mem {vs : List Visit} {x : InstanceId} (h : x ∈ vs.map Visit.id) :
    ∃ before v after, vs = before ++ v :: after ∧ v.id = x := by
  obtain ⟨v, hv, rfl⟩ := List.mem_map.1 h
  obtain ⟨before, after, rfl⟩ := List.append_of_mem hv
  exact ⟨before, v, after, rfl, rfl⟩

theorem producersOf_mem {before : List Visit} {v : Visit} {x : InstanceId}
    (h : some x ∈ producersOf before v) : x ∈ before.map Visit.id := by
  obtain ⟨a, -, ha⟩ := List.mem_map.1 h
  exact lastWriter_mem ha

theorem map_number_inj (initial : List Visit) {xs ys : List (Option InstanceId)}
    (hxs : ∀ x, some x ∈ xs → x ∈ initial.map Visit.id)
    (h : xs.map (Option.map (number initial)) = ys.map (Option.map (number initial))) : xs = ys := by
  induction xs generalizing ys with
  | nil => exact (List.map_eq_nil_iff.1 h.symm).symm
  | cons x xs ih =>
    obtain _ | ⟨y, ys⟩ := ys
    · cases h
    obtain ⟨hxy, h⟩ := List.cons.inj h
    rw [ih (fun z hz => hxs z (List.mem_cons_of_mem x hz)) h]
    cases x with
    | none => cases y with
      | none => rfl
      | some y => cases hxy
    | some x => cases y with
      | none => cases hxy
      | some y => rw [number_inj (hxs x List.mem_cons_self) (Option.some.inj hxy)]

structure Agrees (p : Program) (initial before : List Visit) : Prop where
  known : ∀ v ∈ before, v.id ∈ initial.map Visit.id
  distinct : (before.map Visit.id).Nodup
  inside : ∀ v ∈ before, ∀ a ∈ v.locations, Inside p a
  producers : ∀ earlier v later, before = earlier ++ v :: later →
    ∀ earlier' v' later', initial = earlier' ++ v' :: later' → v.id = v'.id →
      producersOf earlier v = producersOf earlier' v'
  quiet : Quiet (before.flatMap Visit.touches)

theorem agrees_nil (p : Program) (initial : List Visit) : Agrees p initial [] where
  known v hv := absurd hv List.not_mem_nil
  distinct := List.nodup_nil
  inside v hv := absurd hv List.not_mem_nil
  producers earlier v later h := by simp at h
  quiet := quiet_nil

theorem Agrees.of_append {p : Program} {initial before after : List Visit}
    (h : Agrees p initial (before ++ after)) : Agrees p initial before where
  known v hv := h.known v (List.mem_append_left _ hv)
  distinct := (List.nodup_append.1 (List.map_append ▸ h.distinct)).1
  inside v hv := h.inside v (List.mem_append_left _ hv)
  producers earlier v later hsplit :=
    h.producers earlier v (later ++ after) (by rw [hsplit, List.append_assoc, List.cons_append])
  quiet := (List.flatMap_append ▸ h.quiet).of_append

theorem agrees_snoc {p : Program} {initial before : List Visit} {v : Visit} :
    Agrees p initial (before ++ [v]) ↔ Agrees p initial before ∧ v.id ∈ initial.map Visit.id ∧
      v.id ∉ before.map Visit.id ∧ (∀ a ∈ v.locations, Inside p a) ∧
      (∀ earlier' v' later', initial = earlier' ++ v' :: later' → v.id = v'.id →
        producersOf before v = producersOf earlier' v') ∧
      Quiet (before.flatMap Visit.touches ++ v.touches) := by
  have htouches : (before ++ [v]).flatMap Visit.touches = before.flatMap Visit.touches ++ v.touches := by
    simp
  constructor
  · intro h
    exact ⟨h.of_append, h.known v (by simp), (nodup_map_snoc.1 h.distinct).2, h.inside v (by simp),
      h.producers before v [] rfl, htouches ▸ h.quiet⟩
  · rintro ⟨h, hknown, hnew, hin, hproducers, hquiet⟩
    constructor
    · intro w hw
      rcases List.mem_append.1 hw with hw | hw
      · exact h.known w hw
      · rwa [List.mem_singleton.1 hw]
    · exact nodup_map_snoc.2 ⟨h.distinct, hnew⟩
    · intro w hw
      rcases List.mem_append.1 hw with hw | hw
      · exact h.inside w hw
      · rwa [List.mem_singleton.1 hw]
    · intro earlier w later hsplit
      rcases split_of_snoc hsplit with ⟨rfl, rfl⟩ | ⟨rest, rfl⟩
      · exact hproducers
      · exact h.producers earlier w rest rfl
    · rwa [htouches]

end Flow

namespace Visit

theorem mem_touches {v : Visit} {t : Touch} : t ∈ v.touches ↔
    ∃ a ∈ v.accesses, ∃ i ∈ v.concurrent, t = ⟨i, a.1.1, a.1.2.getD 0, a.2⟩ := by
  simp [touches, Conflicts.allTouches, Conflicts.touches, eq_comm]

theorem mem_accesses {v : Visit} {a : Location × Bool} :
    a ∈ v.accesses ↔ (a.2 = false ∧ a.1 ∈ v.reads) ∨ (a.2 = true ∧ a.1 = v.store) := by
  obtain ⟨l, w⟩ := a
  cases w <;> simp [accesses]

theorem location_of_access {v : Visit} {a : Location × Bool} (h : a ∈ v.accesses) : a.1 ∈ v.locations := by
  rcases mem_accesses.1 h with ⟨-, h⟩ | ⟨-, h⟩
  · exact List.mem_cons_of_mem _ h
  · exact h ▸ List.mem_cons_self

theorem access_of_location {v : Visit} {a : Location} (h : a ∈ v.locations) : ∃ w, (a, w) ∈ v.accesses := by
  rcases List.mem_cons.1 h with rfl | h
  · exact ⟨true, mem_accesses.2 (Or.inr ⟨rfl, rfl⟩)⟩
  · exact ⟨false, mem_accesses.2 (Or.inl ⟨rfl, h⟩)⟩

theorem location_eq_of_inside {p : Program} {a b : Location} (ha : Inside p a) (hb : Inside p b)
    (hbuffer : a.1 = b.1) (hoffset : a.2.getD 0 = b.2.getD 0) : a = b := by
  obtain ⟨-, n, -, hn, -⟩ := ha
  obtain ⟨-, m, -, hm, -⟩ := hb
  rw [hn, hm] at hoffset
  exact Prod.ext hbuffer (by rw [hn, hm]; exact congrArg some hoffset)

theorem exists_conflicts_iff {p : Program} {v w : Visit} (hv : ∀ a ∈ v.locations, Inside p a)
    (hw : ∀ a ∈ w.locations, Inside p a) :
    (∃ s ∈ v.touches, ∃ t ∈ w.touches, s.Conflicts t) ↔ v.Apart w ∧ v.Clashes w := by
  constructor
  · rintro ⟨s, hs, t, ht, hst⟩
    obtain ⟨a, ha, i, hi, rfl⟩ := mem_touches.1 hs
    obtain ⟨b, hb, j, hj, rfl⟩ := mem_touches.1 ht
    obtain ⟨⟨hloop, hbuffer, hoffset⟩, haround, hvalue, hwrite⟩ := hst
    refine ⟨⟨i, hi, j, hj, hloop, haround, hvalue⟩, ?_⟩
    -- an offset inside the buffer is the cell itself, so both accesses are to one location
    have hab := location_eq_of_inside (hv a.1 (location_of_access ha)) (hw b.1 (location_of_access hb))
      hbuffer hoffset
    rcases hwrite with hwrite | hwrite
    · rcases mem_accesses.1 ha with ⟨hread, -⟩ | ⟨-, hstore⟩
      · exact absurd (hread.symm.trans hwrite) Bool.false_ne_true
      · exact Or.inl (hstore ▸ hab ▸ location_of_access hb)
    · rcases mem_accesses.1 hb with ⟨hread, -⟩ | ⟨-, hstore⟩
      · exact absurd (hread.symm.trans hwrite) Bool.false_ne_true
      · exact Or.inr (hstore ▸ hab ▸ location_of_access ha)
  · rintro ⟨⟨i, hi, j, hj, hloop, haround, hvalue⟩, hclash⟩
    rcases hclash with hclash | hclash
    · obtain ⟨u, hu⟩ := access_of_location hclash
      have hstore : (v.store, true) ∈ v.accesses := mem_accesses.2 (Or.inr ⟨rfl, rfl⟩)
      exact ⟨_, mem_touches.2 ⟨_, hstore, i, hi, rfl⟩, _, mem_touches.2 ⟨_, hu, j, hj, rfl⟩,
        ⟨hloop, rfl, rfl⟩, haround, hvalue, Or.inl rfl⟩
    · obtain ⟨u, hu⟩ := access_of_location hclash
      have hstore : (w.store, true) ∈ w.accesses := mem_accesses.2 (Or.inr ⟨rfl, rfl⟩)
      exact ⟨_, mem_touches.2 ⟨_, hu, i, hi, rfl⟩, _, mem_touches.2 ⟨_, hstore, j, hj, rfl⟩,
        ⟨hloop, rfl, rfl⟩, haround, hvalue, Or.inr rfl⟩

theorem quiet_touches_iff {p : Program} {vs : List Visit}
    (hin : ∀ v ∈ vs, ∀ a ∈ v.locations, Inside p a) :
    Quiet (vs.flatMap touches) ↔ ∀ v ∈ vs, ∀ w ∈ vs, v.Apart w → ¬ v.Clashes w := by
  constructor
  · intro hq v hv w hw hapart hclash
    obtain ⟨s, hs, t, ht, hst⟩ := (exists_conflicts_iff (hin v hv) (hin w hw)).2 ⟨hapart, hclash⟩
    exact hq s (List.mem_flatMap.2 ⟨v, hv, hs⟩) t (List.mem_flatMap.2 ⟨w, hw, ht⟩) hst
  · intro h s hs t ht hst
    obtain ⟨v, hv, hs⟩ := List.mem_flatMap.1 hs
    obtain ⟨w, hw, ht⟩ := List.mem_flatMap.1 ht
    obtain ⟨hapart, hclash⟩ := (exists_conflicts_iff (hin v hv) (hin w hw)).1 ⟨s, hs, t, ht, hst⟩
    exact h v hv w hw hapart hclash

end Visit

theorem inOrder_touches {t : List Instance} (ht : OrderedTrace t) {vs : List Visit}
    (hv : Instance.visits t = .ok vs) : InOrder (vs.flatMap Visit.touches) := by
  have hconcurrent := Instance.concurrent_of_visits hv
  have hself : ∀ c ∈ vs.map Visit.concurrent, Ordered c c := by
    rw [hconcurrent]
    exact List.forall_mem_map.2 ht.1
  have hpair : (vs.map Visit.concurrent).Pairwise Ordered := by
    rw [hconcurrent]
    exact List.pairwise_map.2 ht.2
  refine List.pairwise_flatMap.2 ⟨?_, ?_⟩
  · intro v hv
    refine List.pairwise_of_forall_mem_list fun s hs t ht => ?_
    obtain ⟨-, -, i, hi, rfl⟩ := Visit.mem_touches.1 hs
    obtain ⟨-, -, j, hj, rfl⟩ := Visit.mem_touches.1 ht
    exact hself _ (List.mem_map_of_mem hv) i hi j hj
  · refine (List.pairwise_map.1 hpair).imp fun {v w} hvw s hs t ht => ?_
    obtain ⟨-, -, i, hi, rfl⟩ := Visit.mem_touches.1 hs
    obtain ⟨-, -, j, hj, rfl⟩ := Visit.mem_touches.1 ht
    exact hvw i hi j hj

end LoopNest
