import LoopNest.Dataflow.Check
import LoopNest.Proofs.Kernel.Meaning
import LoopNest.Proofs.Program.Cells

namespace LoopNest

namespace Writers

def writer (w : Writers) (a : Location) : Option Nat := a.2.bind (w.last a.1)

theorem getD_empty (p : Program) (b : Nat) :
    (empty p).getD b #[] = match p.buffers[b]? with
      | some buffer => Array.replicate buffer.volume none
      | none => #[] := by
  cases h : p.buffers[b]? <;> simp [empty, Array.getD_eq_getD_getElem?, h]

theorem shaped_empty (p : Program) : p.Shaped (empty p) := by
  refine ⟨by simp [empty], ?_⟩
  intro b buffer hb
  rw [getD_empty, hb]
  exact Array.size_replicate

theorem writer_empty (p : Program) (a : Location) : (empty p).writer a = none := by
  obtain ⟨b, _ | n⟩ := a
  · rfl
  · simp only [writer, last, Option.bind_some, getD_empty]
    split
    · next buffer _ => by_cases h : n < buffer.volume <;> simp [Array.getD_eq_getD_getElem?, h]
    · rfl

theorem write_eq_setCell (w : Writers) (b n id : Nat) :
    w.write b n id = setCell w b n (if id = noWriter then none else some id) := rfl

theorem shaped_write {p : Program} {w : Writers} (hw : p.Shaped w) (b n id : Nat) :
    p.Shaped (w.write b n id) := hw.setCell b n _

theorem writer_write {p : Program} {w : Writers} (hw : p.Shaped w) {b n id : Nat}
    (hi : Flow.Inside p (b, some n)) (hid : id ≠ noWriter) (a : Location) :
    (w.write b n id).writer a = if (b, some n) = a then some id else w.writer a := by
  obtain ⟨buffer, m, hb, hm, hlt⟩ := hi
  cases hm
  obtain ⟨b', _ | n'⟩ := a
  · simp [writer]
  · simp only [writer, last, Option.bind_some, write_eq_setCell, if_neg hid, hw.getD_setCell hb hlt,
      Prod.mk.injEq, Option.some.injEq]

end Writers

namespace Flow

def number (vs : List Visit) (x : InstanceId) : Nat := (vs.map Visit.id).idxOf x

theorem number_of_split {before after : List Visit} {v : Visit} (h : v.id ∉ before.map Visit.id) :
    number (before ++ v :: after) v.id = before.length := by
  rw [number, List.map_append, List.map_cons, List.idxOf_append_of_notMem h, List.idxOf_cons_self]
  simp

theorem number_lt {vs : List Visit} {x : InstanceId} (h : x ∈ vs.map Visit.id) :
    number vs x < vs.length := by
  rw [number, ← List.length_map Visit.id]
  exact List.idxOf_lt_length_iff.2 h

theorem number_inj {vs : List Visit} {x y : InstanceId} (hx : x ∈ vs.map Visit.id)
    (h : number vs x = number vs y) : x = y := by
  exact (List.idxOf_inj hx).1 h

end Flow

open LoopNest.Flow Kernel

namespace Dataflow

theorem offsetIn_eq_ok {p : Program} {i : Instance} {place : Place} {n : Nat} :
    offsetIn p i place = .ok n ↔ place.location i.env = .ok (place.buffer, some n) :=
  Place.location_eq_some (fun _ => rfl) nofun

theorem sourcesOf_eq_ok {p : Program} {w : Writers} {i : Instance} {places : List Place}
    {sources : List (Option Nat)} :
    sourcesOf p w i places = .ok sources ↔ ∃ reads, Place.locations i.env places = .ok reads ∧
      (∀ a ∈ reads, a.2.isSome) ∧ sources = reads.map w.writer := by
  induction places generalizing sources with
  | nil =>
    constructor
    · rintro ⟨⟩
      exact ⟨[], rfl, by simp, rfl⟩
    · rintro ⟨reads, h, -, rfl⟩
      cases h
      rfl
  | cons place places ih =>
    simp only [sourcesOf, Place.locations, bind_eq_ok, pure_eq_ok, offsetIn_eq_ok, ih]
    constructor
    · rintro ⟨n, hn, more, ⟨reads, hr, hsome, rfl⟩, rfl⟩
      exact ⟨(place.buffer, some n) :: reads, ⟨_, hn, reads, hr, rfl⟩, List.forall_mem_cons.2 ⟨rfl, hsome⟩, rfl⟩
    · rintro ⟨reads, ⟨a, ha, rest, hr, rfl⟩, hsome, rfl⟩
      obtain ⟨hfirst, hothers⟩ := List.forall_mem_cons.1 hsome
      obtain ⟨n, rfl⟩ := Place.exists_offset ha hfirst
      exact ⟨n, ha, _, ⟨rest, hr, hothers, rfl⟩, rfl⟩

def add (d : Dataflow) (v : Visit) : Dataflow :=
  { ids := d.ids.insert v.id (instanceNumber d.computationOf.size)
    computationOf := d.computationOf.push v.id.1
    sources := d.sources.push (v.reads.map d.writers.writer)
    writers := d.writers.write v.store.1 (v.store.2.getD 0) (instanceNumber d.computationOf.size) }

theorem visit_eq_ok {p : Program} {i : Instance} {d d' : Dataflow} :
    visit p i d = .ok d' ↔ ∃ v, i.visit = .ok v ∧ (∀ a ∈ v.locations, a.2.isSome) ∧
      d.ids.contains v.id = false ∧ d' = d.add v := by
  simp only [visit, bind_eq_ok, lift_eq_ok, Instance.visit_eq_ok]
  constructor
  · rintro ⟨point, hp, h⟩
    split at h
    · cases h
    · next hfresh =>
      simp only [bind_eq_ok, sourcesOf_eq_ok, offsetIn_eq_ok] at h
      obtain ⟨sources, ⟨reads, hr, hsome, rfl⟩, n, hn, h⟩ := h
      cases h
      exact ⟨_, ⟨point, reads, _, hp, hr, hn, rfl⟩, List.forall_mem_cons.2 ⟨rfl, hsome⟩, by simpa using hfresh, rfl⟩
  · rintro ⟨v, ⟨point, reads, store, hp, hr, hs, rfl⟩, hsome, hfresh, rfl⟩
    obtain ⟨hstore, hreads⟩ := List.forall_mem_cons.1 hsome
    obtain ⟨n, rfl⟩ := Place.exists_offset hs hstore
    refine ⟨point, hp, ?_⟩
    rw [if_neg (by simpa using hfresh)]
    simp only [bind_eq_ok, sourcesOf_eq_ok, offsetIn_eq_ok]
    exact ⟨_, ⟨reads, hr, hreads, rfl⟩, n, hs, rfl⟩

structure Records (p : Program) (initial before : List Visit) (d : Dataflow) : Prop where
  distinct : (before.map Visit.id).Nodup
  ids : ∀ x, d.ids[x]? = if x ∈ before.map Visit.id then some (number initial x) else none
  computations : d.computationOf.toList = before.map (fun v => v.id.1)
  count : d.sources.size = before.length
  sources : ∀ earlier v later, before = earlier ++ v :: later →
    d.sources.getD earlier.length [] = (producersOf earlier v).map (Option.map (number initial))
  shaped : p.Shaped d.writers
  writers : ∀ a, d.writers.writer a = (lastWriter before a).map (number initial)
  inside : ∀ v ∈ before, ∀ a ∈ v.locations, Inside p a

theorem records_empty (p : Program) (initial : List Visit) : Records p initial [] (empty p) where
  distinct := List.nodup_nil
  ids x := by simp [empty]
  computations := rfl
  count := rfl
  sources earlier v later h := by simp at h
  shaped := Writers.shaped_empty p
  writers a := Writers.writer_empty p a
  inside v hv := absurd hv List.not_mem_nil

theorem instances_eq {p : Program} {initial before : List Visit} {d : Dataflow}
    (h : Records p initial before d) : d.computationOf.size = before.length := by
  rw [← Array.length_toList, h.computations, List.length_map]

theorem length_lt_of_few {before after : List Visit} {v : Visit}
    (hfew : (before ++ v :: after).length ≤ 4294967295) : before.length < 4294967295 := by
  rw [List.length_append, List.length_cons] at hfew
  omega

section Add

variable {p : Program} {before after : List Visit} {v : Visit} {d : Dataflow}
  (h : Records p (before ++ v :: after) before d) (hfresh : d.ids.contains v.id = false)
include h hfresh

theorem not_mem_of_fresh : v.id ∉ before.map Visit.id := by
  intro hmem
  have hid := h.ids v.id
  rw [if_pos hmem] at hid
  rw [Std.HashMap.contains_eq_isSome_getElem?, hid] at hfresh
  cases hfresh

theorem number_of_fresh : number (before ++ v :: after) v.id = before.length :=
  number_of_split (not_mem_of_fresh h hfresh)

variable (hfew : (before ++ v :: after).length ≤ 4294967295)
include hfew

theorem instanceNumber_of_fresh : instanceNumber d.computationOf.size = number (before ++ v :: after) v.id := by
  have hlt := length_lt_of_few hfew
  rw [number_of_fresh h hfresh, instances_eq h, instanceNumber, Nat.mod_eq_of_lt (by omega)]

theorem number_ne_noWriter : number (before ++ v :: after) v.id ≠ noWriter := by
  have hlt := length_lt_of_few hfew
  rw [number_of_fresh h hfresh, noWriter]
  omega

theorem records_add (hin : ∀ a ∈ v.locations, Inside p a) :
    Records p (before ++ v :: after) (before ++ [v]) (d.add v) := by
  have hnew := not_mem_of_fresh h hfresh
  have hnumber := instanceNumber_of_fresh h hfresh hfew
  obtain ⟨buffer, n, hb, hn, hlt⟩ := hin v.store List.mem_cons_self
  have hstore : v.store = (v.store.1, some n) := Prod.ext rfl hn
  constructor
  · exact nodup_map_snoc.2 ⟨h.distinct, hnew⟩
  · intro x
    rw [add, Std.HashMap.getElem?_insert, h.ids x, hnumber]
    by_cases hx : v.id = x
    · subst hx
      simp
    · simp [hx, eq_comm (a := x)]
  · rw [add, Array.toList_push, h.computations, List.map_append, List.map_singleton]
  · rw [add, Array.size_push, h.count, List.length_append, List.length_singleton]
  · intro earlier w later hsplit
    rw [add, Array.getD_eq_getD_getElem?, Array.getElem?_push]
    -- The producers of the new visit are the last writers so far; those of the others are on record.
    rcases split_of_snoc hsplit with ⟨rfl, rfl⟩ | ⟨rest, rfl⟩
    · rw [if_pos h.count.symm, Option.getD_some, producersOf, List.map_map]
      exact List.map_congr_left fun a _ => h.writers a
    · rw [if_neg (by rw [h.count]; simp), ← Array.getD_eq_getD_getElem?]
      exact h.sources earlier w rest rfl
  · exact Writers.shaped_write h.shaped _ _ _
  · intro a
    have hwriter := Writers.writer_write h.shaped ⟨buffer, n, hb, rfl, hlt⟩ (number_ne_noWriter h hfresh hfew) a
    rw [add, hn, Option.getD_some, lastWriter_snoc, hnumber, hwriter, ← hstore, h.writers]
    split <;> rfl
  · intro w hw
    rcases List.mem_append.1 hw with hw | hw
    · exact h.inside w hw
    · rw [List.mem_singleton.1 hw]
      exact hin

end Add

theorem visits_of_record {p : Program} {t : List Instance} {d d' : Dataflow}
    (h : visitAll (visit p) t d = .ok d') : ∃ vs, Instance.visits t = .ok vs := by
  induction t generalizing d with
  | nil => exact ⟨[], rfl⟩
  | cons i t ih =>
    obtain ⟨next, hn, h⟩ := bind_eq_ok.1 h
    obtain ⟨v, hv, -, -, -⟩ := visit_eq_ok.1 hn
    obtain ⟨rest, hr⟩ := ih h
    exact ⟨v :: rest, Instance.visits_cons_eq_ok.2 ⟨v, rest, hv, hr, rfl⟩⟩

theorem records_run {p : Program} (hp : p.WellFormed) {before after : List Visit} {d d' : Dataflow}
    (hd : Records p (before ++ after) before d) (hfew : (before ++ after).length ≤ 4294967295)
    {t : List Instance} (ht : ∀ i ∈ t, i.statement.IsOf p) (hv : Instance.visits t = .ok after)
    (h : visitAll (visit p) t d = .ok d') : Records p (before ++ after) (before ++ after) d' := by
  induction t generalizing before after d with
  | nil =>
    cases hv
    cases h
    rwa [List.append_nil] at hd ⊢
  | cons i t ih =>
    obtain ⟨v, rest, hiv, hr, rfl⟩ := Instance.visits_cons_eq_ok.1 hv
    obtain ⟨next, hn, h⟩ := bind_eq_ok.1 h
    obtain ⟨w, hw, hsome, hfresh, rfl⟩ := visit_eq_ok.1 hn
    cases hiv.symm.trans hw
    have hobeys := Instance.obeys_of_visit (ht i List.mem_cons_self) hiv
    have hnext := records_add hd hfresh hfew fun a ha => hobeys.inside hp ha (hsome a ha)
    have happ : before ++ v :: rest = (before ++ [v]) ++ rest := by simp
    rw [happ] at hnext hfew ⊢
    exact ih hnext hfew (fun j hj => ht j (List.mem_cons_of_mem i hj)) hr h

theorem records_of_kernel {p : Program} (hp : p.WellFormed) {roots : List Node} {k : Kernel}
    (hk : Kernel.ofTree p roots = .ok k) {d : Dataflow} (hd : ofKernel p k = .ok d) :
    ∃ initial, k.visits = .ok initial ∧
      (initial.length ≤ 4294967295 → Records p initial initial d) := by
  obtain ⟨t, ht, hrun⟩ := (walk_eq_ok_iff (visit p)).1 hd
  obtain ⟨initial, hv⟩ := visits_of_record hrun
  refine ⟨initial, bind_eq_ok.2 ⟨t, ht, hv⟩, fun hfew => ?_⟩
  have hempty : Records p ([] ++ initial) [] (empty p) := records_empty p initial
  exact records_run hp hempty hfew (fun i hi => isOf_of_trace hk ht hi) hv hrun

theorem exists_record_run {p : Program} {before after : List Visit} {d : Dataflow}
    (hd : Records p (before ++ after) before d) (hfew : (before ++ after).length ≤ 4294967295)
    (hdistinct : ((before ++ after).map Visit.id).Nodup)
    (hin : ∀ v ∈ after, ∀ a ∈ v.locations, Inside p a) {t : List Instance}
    (hv : Instance.visits t = .ok after) : ∃ d', visitAll (visit p) t d = .ok d' := by
  induction t generalizing before after d with
  | nil => exact ⟨d, rfl⟩
  | cons i t ih =>
    obtain ⟨v, rest, hiv, hr, rfl⟩ := Instance.visits_cons_eq_ok.1 hv
    have hfresh : d.ids.contains v.id = false := by
      rw [Std.HashMap.contains_eq_isSome_getElem?, hd.ids, if_neg (not_mem_of_nodup_map hdistinct)]
      rfl
    have hsome : ∀ a ∈ v.locations, a.2.isSome := by
      intro a ha
      obtain ⟨-, n, -, hn, -⟩ := hin v List.mem_cons_self a ha
      rw [hn]
      rfl
    have hnext := records_add hd hfresh hfew (hin v List.mem_cons_self)
    have happ : before ++ v :: rest = (before ++ [v]) ++ rest := by simp
    rw [happ] at hnext hfew hdistinct
    obtain ⟨d', hd'⟩ := ih hnext hfew hdistinct (fun w hw => hin w (List.mem_cons_of_mem v hw)) hr
    exact ⟨d', bind_eq_ok.2 ⟨d.add v, visit_eq_ok.2 ⟨v, hiv, hsome, hfresh, rfl⟩, hd'⟩⟩

theorem exists_record_of_kernel {p : Program} {k : Kernel} {initial : List Visit}
    (hv : k.visits = .ok initial) (hfew : initial.length ≤ 4294967295)
    (hdistinct : (initial.map Visit.id).Nodup) (hin : ∀ v ∈ initial, ∀ a ∈ v.locations, Inside p a) :
    ∃ d, ofKernel p k = .ok d := by
  obtain ⟨t, ht, hv⟩ := bind_eq_ok.1 hv
  have hempty : Records p ([] ++ initial) [] (empty p) := records_empty p initial
  obtain ⟨d, hd⟩ := exists_record_run hempty hfew hdistinct hin hv
  exact ⟨d, (walk_eq_ok_iff (visit p)).2 ⟨t, ht, hd⟩⟩

end Dataflow

end LoopNest
