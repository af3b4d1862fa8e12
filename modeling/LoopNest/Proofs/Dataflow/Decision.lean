import LoopNest.Dataflow.Legality
import LoopNest.Proofs.Dataflow.Agreement

/-!
The check decides its specification. Along a walk it keeps who wrote last, which instances ran and the
summaries of the cells, and it goes on exactly as long as the visits so far agree with those on record.
-/

namespace LoopNest

open LoopNest.Flow Touch Kernel

theorem Statement.IsOf.reads_length {p : Program} {st : Statement} (h : st.IsOf p) :
    ∃ c, p.computations[st.computation]? = some c ∧ st.reads.length = c.expr.loads.length := by
  obtain ⟨scope, l, hl⟩ := h
  obtain ⟨c, hc⟩ := Numbering.fromLeaf_of_statement hl
  exact ⟨c, hc.same ▸ hc.computation, (Numbering.locations_expr hc.value).length_eq.symm⟩

namespace Dataflow

variable {p : Program} {d : Dataflow} {initial : List Visit} (hd : Records p initial initial d)

section Record

include hd

theorem recorded_of_split {earlier later : List Visit} {v : Visit} (h : initial = earlier ++ v :: later) :
    d.ids[v.id]? = some earlier.length ∧ number initial v.id = earlier.length ∧
      d.sources.getD earlier.length [] = (producersOf earlier v).map (Option.map (number initial)) := by
  have hmem : v.id ∈ initial.map Visit.id := by rw [h]; simp
  have hdistinct := hd.distinct
  rw [h] at hdistinct
  have hnumber : number initial v.id = earlier.length := by
    rw [h, number_of_split (not_mem_of_nodup_map hdistinct)]
  refine ⟨?_, hnumber, hd.sources earlier v later h⟩
  rw [hd.ids, if_pos hmem, hnumber]

theorem mem_of_recorded {x : InstanceId} {id : Nat} (h : d.ids[x]? = some id) :
    x ∈ initial.map Visit.id ∧ id = number initial x := by
  rw [hd.ids] at h
  split at h
  · next hx => exact ⟨hx, (Option.some.inj h).symm⟩
  · cases h

theorem sources_length (hobeys : ∀ v ∈ initial, v.Obeys p) {i : Instance} (hi : i.statement.IsOf p)
    {point : List Int} {id : Nat} (hid : d.ids[(i.statement.computation, point)]? = some id) :
    i.statement.reads.length = (d.sources.getD id []).length := by
  obtain ⟨hmem, rfl⟩ := mem_of_recorded hd hid
  obtain ⟨earlier, v, later, hsplit, hv⟩ := split_of_mem hmem
  obtain ⟨-, hnumber, hsources⟩ := recorded_of_split hd hsplit
  obtain ⟨c, hc, hreads, -⟩ := hobeys v (by rw [hsplit]; simp)
  obtain ⟨c', hc', hlen⟩ := hi.reads_length
  rw [hv] at hc hnumber
  cases hc.symm.trans hc'
  rw [hnumber, hsources, hlen, List.length_map, producersOf, List.length_map, hreads,
    Computation.locationsAt, List.length_map]

end Record

structure Marks (initial : List Visit) (ids : List InstanceId) (executed : Array Bool) : Prop where
  size : executed.size = initial.length
  iff_mem : ∀ x ∈ initial.map Visit.id, executed.getD (number initial x) false = true ↔ x ∈ ids

theorem marks_start (initial : List Visit) : Marks initial [] (Array.replicate initial.length false) where
  size := Array.size_replicate
  iff_mem x _ := by
    by_cases h : number initial x < initial.length <;> simp [Array.getD_eq_getD_getElem?, h]

theorem Marks.snoc {ids : List InstanceId} {executed : Array Bool} (h : Marks initial ids executed)
    {x : InstanceId} (hx : x ∈ initial.map Visit.id) :
    Marks initial (ids ++ [x]) (executed.setIfInBounds (number initial x) true) := by
  refine ⟨by rw [Array.size_setIfInBounds, h.size], fun y hy => ?_⟩
  rw [getD_setIfInBounds (by rw [h.size]; exact number_lt hx), List.mem_append, List.mem_singleton]
  by_cases hxy : number initial x = number initial y
  · obtain rfl := number_inj hx hxy
    simp
  · rw [if_neg hxy, h.iff_mem y hy]
    have hne : y ≠ x := fun he => hxy (by rw [he])
    simp [hne]

theorem Marks.all {ids : List InstanceId} {executed : Array Bool} (h : Marks initial ids executed)
    (hdistinct : (initial.map Visit.id).Nodup) (hall : ∀ x ∈ initial.map Visit.id, x ∈ ids) :
    ∀ n < executed.size, executed.getD n false = true := by
  intro n hn
  have hlt : n < (initial.map Visit.id).length := by rwa [List.length_map, ← h.size]
  have hmem := List.getElem_mem hlt
  have hnumber : number initial (initial.map Visit.id)[n] = n := hdistinct.idxOf_getElem n hlt
  exact hnumber ▸ (h.iff_mem _ hmem).2 (hall _ hmem)

structure Follows (p : Program) (loops : Nat) (initial before : List Visit) (s : Progress) : Prop where
  marks : Marks initial (before.map Visit.id) s.executed
  shaped : p.Shaped s.writers
  writers : ∀ a, s.writers.writer a = (lastWriter before a).map (number initial)
  reflects : Conflicts.Reflects p loops (before.flatMap Visit.touches) s.conflicts

theorem follows_start (p : Program) (loops : Nat) (initial : List Visit) :
    Follows p loops initial [] { executed := Array.replicate initial.length false
                                 writers := Writers.empty p
                                 conflicts := Conflicts.empty loops p.buffers.length } where
  marks := marks_start initial
  shaped := Writers.shaped_empty p
  writers a := Writers.writer_empty p a
  reflects := Conflicts.reflects_empty p loops

variable {loops : Nat} {before : List Visit} {s : Progress} {v : Visit}

theorem touches_snoc (before : List Visit) (v : Visit) :
    (before ++ [v]).flatMap Visit.touches = before.flatMap Visit.touches ++ v.touches := by
  simp

theorem follows_advance (hs : Follows p loops initial before s) (hfew : initial.length ≤ 4294967295)
    (hknown : v.id ∈ initial.map Visit.id) (hin : ∀ a ∈ v.locations, Inside p a) {c : Conflicts}
    (hc : Conflicts.Reflects p loops (before.flatMap Visit.touches ++ v.touches) c) :
    Follows p loops initial (before ++ [v]) (advance s v (number initial v.id) c) := by
  obtain ⟨buffer, n, hb, hn, hvolume⟩ := hin v.store List.mem_cons_self
  have hstore : v.store = (v.store.1, some n) := Prod.ext rfl hn
  have hlt := number_lt hknown
  constructor
  · rw [List.map_append, List.map_singleton]
    exact hs.marks.snoc hknown
  · exact Writers.shaped_write hs.shaped _ _ _
  · intro a
    rw [advance, hn, Option.getD_some, lastWriter_snoc,
      Writers.writer_write hs.shaped ⟨buffer, n, hb, rfl, hvolume⟩, ← hstore, hs.writers]
    · split <;> rfl
    · rw [noWriter]
      omega
  · rw [touches_snoc]
    exact hc

include hd in
theorem checkVisit_of_flow {i : Instance} (hs : Follows p loops initial before s) (hv : i.visit = .ok v)
    (hknown : v.id ∈ initial.map Visit.id) (hnew : v.id ∉ before.map Visit.id) (hin : ∀ a ∈ v.locations, Inside p a)
    (hproducers : ∀ earlier' v' later', initial = earlier' ++ v' :: later' → v.id = v'.id →
      producersOf before v = producersOf earlier' v') :
    d.checkVisit p i s =
      (do let c ← Conflicts.recordAll p v.concurrent v.accesses s.conflicts
          return advance s v (number initial v.id) c) := by
  obtain ⟨earlier', v', later', hsplit, hvv'⟩ := split_of_mem hknown
  obtain ⟨hid, hnumber, hrecorded⟩ := recorded_of_split hd hsplit
  rw [hvv'] at hid hnumber
  refine checkVisit_eq_record hv (fun a ha => ?_) (hnumber ▸ hid) ?_ ?_
  · obtain ⟨-, n, -, hn, -⟩ := hin a ha
    rw [hn]
    rfl
  · rw [← Bool.not_eq_true, hs.marks.iff_mem v.id hknown]
    exact hnew
  · rw [hnumber, hrecorded, ← hproducers earlier' v' later' hsplit hvv'.symm, producersOf, List.map_map]
    exact List.map_congr_left fun a _ => (hs.writers a).symm

section Step

variable {i : Instance} (hs : Follows p loops initial before s) (hv : i.visit = .ok v)
  (hord : InOrder (before.flatMap Visit.touches ++ v.touches)) (hloops : ∀ a ∈ v.concurrent, a.loop < loops)
include hd hs hv hord hloops

theorem exists_checkVisit (h : Agrees p initial (before ++ [v])) :
    ∃ s', d.checkVisit p i s = .ok s' := by
  obtain ⟨-, hknown, hnew, hin, hproducers, hquiet⟩ := agrees_snoc.1 h
  have hin' : ∀ a ∈ v.accesses, Inside p a.1 := fun a ha => hin a.1 (Visit.location_of_access ha)
  obtain ⟨c, hc⟩ := Conflicts.exists_recordAll hs.reflects hord hin' hloops hquiet
  rw [checkVisit_of_flow hd hs hv hknown hnew hin hproducers, hc]
  exact ⟨_, rfl⟩

variable (hobeys : ∀ v ∈ initial, v.Obeys p) (hi : i.statement.IsOf p)
include hobeys hi

variable (hp : p.WellFormed) (hfew : initial.length ≤ 4294967295) (hagrees : Agrees p initial before)
include hp hfew hagrees

theorem agrees_of_checkVisit {s' : Progress} (h : d.checkVisit p i s = .ok s') :
    Agrees p initial (before ++ [v]) ∧ Follows p loops initial (before ++ [v]) s' := by
  obtain ⟨w, id, c, hw, hsome, hid, hexecuted, hsources, hc, rfl⟩ :=
    (checkVisit_eq_ok fun point id _ hid => sources_length hd hobeys hi hid).1 h
  cases hv.symm.trans hw
  obtain ⟨hknown, rfl⟩ := mem_of_recorded hd hid
  have hin : ∀ a ∈ v.locations, Inside p a := fun a ha =>
    (Instance.obeys_of_visit hi hv).inside hp ha (hsome a ha)
  have hin' : ∀ a ∈ v.accesses, Inside p a.1 := fun a ha => hin a.1 (Visit.location_of_access ha)
  obtain ⟨hquiet, hreflects⟩ :=
    Conflicts.reflects_recordAll hs.reflects hagrees.quiet hord hin' hloops hc
  refine ⟨agrees_snoc.2 ⟨hagrees, hknown, ?_, hin, ?_, hquiet⟩,
    follows_advance hs hfew hknown hin hreflects⟩
  · intro hmem
    rw [(hs.marks.iff_mem v.id hknown).2 hmem] at hexecuted
    cases hexecuted
  · intro earlier' v' later' hsplit hvv'
    obtain ⟨-, hnumber, hrecorded⟩ := recorded_of_split hd hsplit
    rw [hvv', hnumber, hrecorded] at hsources
    -- instances on record are known by their numbers, so equal sources are equal producers
    refine map_number_inj initial ?_ ?_
    · intro x hx
      obtain ⟨w, hw, rfl⟩ := List.mem_map.1 (producersOf_mem hx)
      exact hagrees.known w hw
    · rw [hsources, producersOf, List.map_map]
      exact List.map_congr_left fun a _ => (hs.writers a).symm

end Step

section Run

variable (hobeys : ∀ v ∈ initial, v.Obeys p)
include hd hobeys

theorem visits_of_check {t : List Instance} (ht : ∀ i ∈ t, i.statement.IsOf p) {s s' : Progress}
    (h : visitAll (d.checkVisit p) t s = .ok s') : ∃ vs, Instance.visits t = .ok vs := by
  induction t generalizing s with
  | nil => exact ⟨[], rfl⟩
  | cons i t ih =>
    obtain ⟨next, hn, h⟩ := bind_eq_ok.1 h
    obtain ⟨v, -, -, hv, -⟩ := (checkVisit_eq_ok fun point id _ hid =>
      sources_length hd hobeys (ht i List.mem_cons_self) hid).1 hn
    obtain ⟨rest, hr⟩ := ih (fun j hj => ht j (List.mem_cons_of_mem i hj)) h
    exact ⟨v :: rest, Instance.visits_cons_eq_ok.2 ⟨v, rest, hv, hr, rfl⟩⟩

variable (hp : p.WellFormed) (hfew : initial.length ≤ 4294967295)
include hp hfew

theorem agrees_of_run {t : List Instance} (ht : ∀ i ∈ t, i.statement.IsOf p) {before after : List Visit}
    (hv : Instance.visits t = .ok after) (hord : InOrder ((before ++ after).flatMap Visit.touches))
    (hloops : ∀ v ∈ after, ∀ a ∈ v.concurrent, a.loop < loops) {s s' : Progress}
    (hagrees : Agrees p initial before) (hs : Follows p loops initial before s)
    (h : visitAll (d.checkVisit p) t s = .ok s') :
    Agrees p initial (before ++ after) ∧ Follows p loops initial (before ++ after) s' := by
  induction t generalizing before after s with
  | nil =>
    cases hv
    cases h
    simpa using And.intro hagrees hs
  | cons i t ih =>
    obtain ⟨v, rest, hiv, hr, rfl⟩ := Instance.visits_cons_eq_ok.1 hv
    obtain ⟨next, hn, h⟩ := bind_eq_ok.1 h
    have happ : before ++ v :: rest = (before ++ [v]) ++ rest := by simp
    rw [happ] at hord ⊢
    have hord' : InOrder (before.flatMap Visit.touches ++ v.touches) := by
      rw [List.flatMap_append, touches_snoc] at hord
      exact (List.pairwise_append.1 hord).1
    obtain ⟨hagrees', hs'⟩ := agrees_of_checkVisit hd hs hiv hord' (hloops v List.mem_cons_self) hobeys
      (ht i List.mem_cons_self) hp hfew hagrees hn
    exact ih (fun j hj => ht j (List.mem_cons_of_mem i hj)) hr hord
      (fun w hw => hloops w (List.mem_cons_of_mem v hw)) hagrees' hs' h

theorem exists_run {t : List Instance} (ht : ∀ i ∈ t, i.statement.IsOf p) {before after : List Visit}
    (hv : Instance.visits t = .ok after) (hord : InOrder ((before ++ after).flatMap Visit.touches))
    (hloops : ∀ v ∈ after, ∀ a ∈ v.concurrent, a.loop < loops) {s : Progress}
    (hs : Follows p loops initial before s) (h : Agrees p initial (before ++ after)) :
    ∃ s', visitAll (d.checkVisit p) t s = .ok s' := by
  induction t generalizing before after s with
  | nil => exact ⟨s, rfl⟩
  | cons i t ih =>
    obtain ⟨v, rest, hiv, hr, rfl⟩ := Instance.visits_cons_eq_ok.1 hv
    have happ : before ++ v :: rest = (before ++ [v]) ++ rest := by simp
    rw [happ] at hord h
    have hord' : InOrder (before.flatMap Visit.touches ++ v.touches) := by
      rw [List.flatMap_append, touches_snoc] at hord
      exact (List.pairwise_append.1 hord).1
    have hi := ht i List.mem_cons_self
    have hloop := hloops v List.mem_cons_self
    obtain ⟨next, hn⟩ := exists_checkVisit hd hs hiv hord' hloop h.of_append
    have hs' := (agrees_of_checkVisit hd hs hiv hord' hloop hobeys hi hp hfew h.of_append.of_append hn).2
    obtain ⟨s', hs''⟩ := ih (fun j hj => ht j (List.mem_cons_of_mem i hj)) hr hord
      (fun w hw => hloops w (List.mem_cons_of_mem v hw)) hs' h
    exact ⟨s', bind_eq_ok.2 ⟨next, hn, hs''⟩⟩

end Run

theorem missing_eq_nil {executed : Array Bool} (hsize : executed.size = d.computationOf.size) :
    d.missing executed = [] ↔ ∀ n < executed.size, executed.getD n false = true := by
  have hlen : executed.toList.length = d.computationOf.toList.length := by simpa using hsize
  rw [missing, List.filterMap_eq_nil_iff]
  constructor
  · intro h n hn
    have hn' : n < d.computationOf.size := hsize ▸ hn
    have hmem : (executed[n], d.computationOf[n]) ∈ executed.toList.zip d.computationOf.toList := by
      refine List.mem_of_getElem? (i := n) (List.getElem?_zip_eq_some.2 ?_)
      simp [hn, hn']
    have hn'' := h _ hmem
    simpa [Array.getD_eq_getD_getElem?, hn] using hn''
  · rintro h ⟨e, c⟩ hmem
    obtain ⟨n, hn⟩ := List.mem_iff_getElem?.1 (List.of_mem_zip hmem).1
    obtain ⟨hlt, rfl⟩ := List.getElem?_eq_some_iff.1 hn
    have hlt' : n < executed.size := by simpa using hlt
    have := h n hlt'
    simpa [Array.getD_eq_getD_getElem?, hlt'] using this

theorem firstDifference_eq_none {w w' : Writers} (hw : p.Shaped w) (hw' : p.Shaped w') :
    firstDifference w w' = none ↔ ∀ b, w.getD b #[] = w'.getD b #[] := by
  rw [firstDifference, position?_eq_findIdx?, List.findIdx?_eq_none_iff]
  constructor
  · intro h b
    by_cases hb : b < p.buffers.length
    · have hb₁ : b < w.size := hw.size ▸ hb
      have hb₂ : b < w'.size := hw'.size ▸ hb
      have hmem : (w[b], w'[b]) ∈ w.toList.zip w'.toList := by
        refine List.mem_of_getElem? (i := b) (List.getElem?_zip_eq_some.2 ?_)
        simp [hb₁, hb₂]
      simpa [Array.getD_eq_getD_getElem?, hb₁, hb₂] using h _ hmem
    · have hb₁ : ¬ b < w.size := hw.size ▸ hb
      have hb₂ : ¬ b < w'.size := hw'.size ▸ hb
      simp [Array.getD_eq_getD_getElem?, hb₁, hb₂]
  · rintro h ⟨cells, cells'⟩ hmem
    obtain ⟨b, hb⟩ := List.mem_iff_getElem?.1 hmem
    obtain ⟨hcells, hcells'⟩ := List.getElem?_zip_eq_some.1 hb
    have hb := h b
    simp only [Array.getElem?_toList] at hcells hcells'
    simp only [Array.getD_eq_getD_getElem?, hcells, hcells', Option.getD_some] at hb
    simpa using hb

theorem count_eq_one_or_zero {xs ys : List InstanceId} :
    (∀ x, xs.count x = if x ∈ ys then 1 else 0) ↔ xs.Nodup ∧ ∀ x, x ∈ xs ↔ x ∈ ys := by
  constructor
  · intro h
    refine ⟨List.nodup_iff_count.2 fun x => ?_, fun x => ?_⟩
    · rw [h x]
      split <;> omega
    · by_cases hx : x ∈ ys
      · exact iff_of_true (List.count_pos_iff.1 (by rw [h x, if_pos hx]; exact Nat.one_pos)) hx
      · exact iff_of_false (List.count_eq_zero.1 (by rw [h x, if_neg hx])) hx
  · rintro ⟨hnodup, hmem⟩ x
    rw [hnodup.count]
    simp only [hmem x]

theorem agrees_of_faithful {vs : List Visit} (h : Faithful p initial vs) : Agrees p initial vs where
  known v hv := ((count_eq_one_or_zero.1 h.once).2 v.id).1 (List.mem_map_of_mem hv)
  distinct := (count_eq_one_or_zero.1 h.once).1
  inside := h.inside
  producers := h.producers
  quiet := (Visit.quiet_touches_iff h.inside).2 h.separate

theorem executed_of_faithful {vs : List Visit} (h : Faithful p initial vs) (hd : Records p initial initial d)
    {s : Progress} (hs : Follows p loops initial vs s) :
    ∀ n < s.executed.size, s.executed.getD n false = true :=
  hs.marks.all hd.distinct fun x => ((count_eq_one_or_zero.1 h.once).2 x).2

theorem faithful_of_agrees (hd : Records p initial initial d) {vs : List Visit}
    (h : Agrees p initial vs) {s : Progress} (hs : Follows p loops initial vs s)
    (hexecuted : ∀ n < s.executed.size, s.executed.getD n false = true)
    (hwriters : ∀ b, d.writers.getD b #[] = s.writers.getD b #[]) : Faithful p initial vs where
  once := by
    refine count_eq_one_or_zero.2 ⟨h.distinct, fun x => ⟨fun hx => ?_, fun hx => ?_⟩⟩
    · obtain ⟨v, hv, rfl⟩ := List.mem_map.1 hx
      exact h.known v hv
    · exact (hs.marks.iff_mem x hx).1 (hexecuted _ (hs.marks.size ▸ number_lt hx))
  inside := h.inside
  producers := h.producers
  final a := by
    have hlast : d.writers.last a.1 = s.writers.last a.1 := by
      funext n
      rw [Writers.last, Writers.last, hwriters]
    have hwriter : d.writers.writer a = s.writers.writer a := by
      rw [Writers.writer, Writers.writer, hlast]
    rw [hd.writers, hs.writers] at hwriter
    suffices hsame : [lastWriter vs a] = [lastWriter initial a] from List.singleton_inj.1 hsame
    refine map_number_inj initial ?_ ?_
    · intro x hx
      obtain ⟨v, hv, rfl⟩ := List.mem_map.1 (lastWriter_mem (List.mem_singleton.1 hx).symm)
      exact h.known v hv
    · simp only [List.map_cons, List.map_nil, hwriter]
  separate := (Visit.quiet_touches_iff h.inside).1 h.quiet

theorem loops_of_visits {roots : List Node} {k : Kernel} (hk : Kernel.ofTree p roots = .ok k)
    {t : List Instance} (ht : k.trace = .ok t) {vs : List Visit} (hv : Instance.visits t = .ok vs) :
    ∀ v ∈ vs, ∀ a ∈ v.concurrent, a.loop < k.loops := by
  intro v hmem a ha
  obtain ⟨i, hi, hiv⟩ := Instance.traverses_visits.exists_of_mem hv hmem
  obtain ⟨_, _, _, _, _, _, rfl⟩ := Instance.visit_eq_ok.1 hiv
  exact loop_lt_of_ofTree hk ht hi ha

section Kernel

variable (hp : p.WellFormed) (hobeys : ∀ v ∈ initial, v.Obeys p) (hfew : initial.length ≤ 4294967295)
  {roots : List Node} {k : Kernel} (hk : Kernel.ofTree p roots = .ok k)
include hd hp hobeys hfew hk

theorem follows_of_trace {t : List Instance} (ht : k.trace = .ok t) {vs : List Visit}
    (hv : Instance.visits t = .ok vs) {start s : Progress} (hstart : Follows p k.loops initial [] start)
    (hrun : visitAll (d.checkVisit p) t start = .ok s) : Agrees p initial vs ∧ Follows p k.loops initial vs s := by
  have hof : ∀ i ∈ t, i.statement.IsOf p := fun i hi => isOf_of_trace hk ht hi
  have hord : InOrder (([] ++ vs).flatMap Visit.touches) := inOrder_touches (orderedTrace_of_ofTree hk ht) hv
  have hloops := loops_of_visits hk ht hv
  exact agrees_of_run hd hobeys hp hfew hof hv hord hloops (agrees_nil p initial) hstart hrun

theorem exists_faithful_of_check (h : d.check p k = .ok ()) :
    ∃ vs, k.visits = .ok vs ∧ Faithful p initial vs := by
  have hinstances := instances_eq hd
  simp only [check, bind_eq_ok, walk_eq_ok_iff, instances, hinstances] at h
  obtain ⟨s, ⟨t, ht, hrun⟩, h⟩ := h
  obtain ⟨vs, hv⟩ := visits_of_check hd hobeys (fun i hi => isOf_of_trace hk ht hi) hrun
  obtain ⟨hagrees, hs⟩ := follows_of_trace hd hp hobeys hfew hk ht hv (follows_start p k.loops initial) hrun
  refine ⟨vs, bind_eq_ok.2 ⟨t, ht, hv⟩, ?_⟩
  split at h
  · cases h
  · next hmissing =>
    split at h
    · cases h
    · next hdifference =>
      rw [missing_eq_nil (by rw [hs.marks.size, hinstances])] at hmissing
      rw [firstDifference_eq_none hd.shaped hs.shaped] at hdifference
      exact faithful_of_agrees hd hagrees hs hmissing hdifference

theorem check_of_visits {vs : List Visit} (hv : k.visits = .ok vs) (hfaithful : Faithful p initial vs) :
    d.check p k = .ok () := by
  have hinstances := instances_eq hd
  have hstart := follows_start p k.loops initial
  obtain ⟨t, ht, hv⟩ := bind_eq_ok.1 hv
  have hord : InOrder (([] ++ vs).flatMap Visit.touches) := inOrder_touches (orderedTrace_of_ofTree hk ht) hv
  obtain ⟨s, hrun⟩ := exists_run hd hobeys hp hfew (fun i hi => isOf_of_trace hk ht hi) hv hord
    (loops_of_visits hk ht hv) hstart (agrees_of_faithful hfaithful)
  obtain ⟨-, hs⟩ := follows_of_trace hd hp hobeys hfew hk ht hv hstart hrun
  simp only [check, bind_eq_ok, walk_eq_ok_iff, instances, hinstances]
  refine ⟨s, ⟨t, ht, hrun⟩, ?_⟩
  rw [(missing_eq_nil (by rw [hs.marks.size, hinstances])).2 (executed_of_faithful hfaithful hd hs)]
  simp only
  have hwriters (b n : Nat) :
      (d.writers.getD b #[]).getD n none = (s.writers.getD b #[]).getD n none := by
    change d.writers.writer (b, some n) = s.writers.writer (b, some n)
    rw [hd.writers, hs.writers, hfaithful.final]
  rw [(firstDifference_eq_none hd.shaped hs.shaped).2 (hd.shaped.getD_eq hs.shaped hwriters)]
  rfl

theorem check_eq_ok_iff : d.check p k = .ok () ↔ ∃ vs, k.visits = .ok vs ∧ Faithful p initial vs := by
  constructor
  · exact exists_faithful_of_check hd hp hobeys hfew hk
  · rintro ⟨vs, hv, hfaithful⟩
    exact check_of_visits hd hp hobeys hfew hk hv hfaithful

end Kernel

end Dataflow

end LoopNest
