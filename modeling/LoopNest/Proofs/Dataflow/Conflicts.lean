import LoopNest.Dataflow.Check
import LoopNest.Proofs.Dataflow.Recording
import LoopNest.Proofs.Dataflow.Summary

namespace LoopNest

open LoopNest.Flow Touch CellSummary

namespace Conflicts

def summary (c : Conflicts) (loop buffer offset : Nat) : Option CellSummary :=
  (c.tables.getD (c.table loop buffer) #[]).getD offset none

structure Shaped (p : Program) (loops : Nat) (c : Conflicts) : Prop where
  buffers : c.buffers = p.buffers.length
  size : c.tables.size = loops * p.buffers.length
  cells : ∀ loop b buffer, p.buffers[b]? = some buffer →
    (c.tables.getD (c.table loop b) #[]).size = 0 ∨
      (c.tables.getD (c.table loop b) #[]).size = buffer.volume

theorem getD_empty (loops buffers i : Nat) : (empty loops buffers).tables.getD i #[] = #[] := by
  by_cases h : i < loops * buffers <;> simp [empty, Array.getD_eq_getD_getElem?, h]

theorem shaped_empty (p : Program) (loops : Nat) : (empty loops p.buffers.length).Shaped p loops where
  buffers := rfl
  size := by simp [empty]
  cells loop b buffer _ := by rw [getD_empty]; exact Or.inl rfl

theorem summary_empty (loops buffers loop buffer offset : Nat) :
    (empty loops buffers).summary loop buffer offset = none := by
  rw [summary, getD_empty]
  rfl

def filled (cells : Array (Option CellSummary)) (volume : Nat) : Array (Option CellSummary) :=
  if cells.isEmpty then Array.replicate volume none else cells

theorem size_filled {cells : Array (Option CellSummary)} {volume : Nat}
    (h : cells.size = 0 ∨ cells.size = volume) : (filled cells volume).size = volume := by
  rw [filled]
  split
  · exact Array.size_replicate
  · next hne =>
    rw [Array.isEmpty_iff_size_eq_zero] at hne
    exact h.resolve_left hne

theorem getD_filled (cells : Array (Option CellSummary)) (volume offset : Nat) :
    (filled cells volume).getD offset none = cells.getD offset none := by
  rw [filled]
  split
  · next he =>
    rw [Array.isEmpty_iff.1 he]
    by_cases h : offset < volume <;> simp [Array.getD_eq_getD_getElem?, h]
  · rfl

variable {p : Program} {loops : Nat} {c : Conflicts}

theorem table_lt (hc : c.Shaped p loops) {loop b : Nat} (hl : loop < loops) (hb : b < p.buffers.length) :
    c.table loop b < c.tables.size := by
  rw [table, hc.buffers, hc.size]
  calc loop * p.buffers.length + b < loop * p.buffers.length + p.buffers.length := by omega
    _ = (loop + 1) * p.buffers.length := by rw [Nat.add_mul, Nat.one_mul]
    _ ≤ loops * p.buffers.length := Nat.mul_le_mul_right _ hl

theorem table_inj (hc : c.Shaped p loops) {loop b loop' b' : Nat} (hb : b < p.buffers.length)
    (hb' : b' < p.buffers.length) (h : c.table loop b = c.table loop' b') : loop = loop' ∧ b = b' := by
  rw [table, table, hc.buffers] at h
  have hpos : 0 < p.buffers.length := by omega
  have hdiv := congrArg (· / p.buffers.length) h
  simp only [Nat.mul_comm _ p.buffers.length, Nat.mul_add_div hpos, Nat.div_eq_of_lt hb,
    Nat.div_eq_of_lt hb', Nat.add_zero] at hdiv
  subst hdiv
  exact ⟨rfl, by omega⟩

theorem getD_put (i : Iteration) (b volume offset : Nat) (u : CellSummary)
    (hlt : c.table i.loop b < c.tables.size) (k : Nat) :
    (c.put i b volume offset u).tables.getD k #[] =
      if c.table i.loop b = k then
        (filled (c.tables.getD k #[]) volume).setIfInBounds offset (some u)
      else c.tables.getD k #[] := by
  simp only [put, Array.getD_eq_getD_getElem?, Array.getElem?_modify, filled]
  by_cases h : c.table i.loop b = k
  · subst h
    simp [hlt]
  · simp [h]

theorem shaped_put (hc : c.Shaped p loops) {i : Iteration} (hi : i.loop < loops) {b : Nat}
    {buffer : Buffer} (hb : p.buffers[b]? = some buffer) (offset : Nat) (u : CellSummary) :
    (c.put i b buffer.volume offset u).Shaped p loops := by
  have hlt := table_lt hc hi (List.getElem?_eq_some_iff.1 hb).1
  refine ⟨hc.buffers, by simpa [put] using hc.size, ?_⟩
  intro loop b' buffer' hb'
  have htable : (c.put i b buffer.volume offset u).table loop b' = c.table loop b' := rfl
  rw [htable, getD_put i b buffer.volume offset u hlt]
  split
  · next he =>
    obtain ⟨rfl, rfl⟩ := table_inj hc (List.getElem?_eq_some_iff.1 hb).1
      (List.getElem?_eq_some_iff.1 hb').1 he
    cases hb.symm.trans hb'
    right
    rw [Array.size_setIfInBounds, size_filled (hc.cells _ _ _ hb)]
  · exact hc.cells loop b' buffer' hb'

theorem summary_put (hc : c.Shaped p loops) {i : Iteration} (hi : i.loop < loops) {b offset : Nat}
    {buffer : Buffer} (hb : p.buffers[b]? = some buffer) (ho : offset < buffer.volume) (u : CellSummary)
    {loop b' : Nat} (hb' : b' < p.buffers.length) (offset' : Nat) :
    (c.put i b buffer.volume offset u).summary loop b' offset' =
      if i.loop = loop ∧ b = b' ∧ offset = offset' then some u else c.summary loop b' offset' := by
  have hlt := table_lt hc hi (List.getElem?_eq_some_iff.1 hb).1
  have htable : (c.put i b buffer.volume offset u).table loop b' = c.table loop b' := rfl
  rw [summary, htable, getD_put i b buffer.volume offset u hlt]
  split
  · next he =>
    obtain ⟨rfl, rfl⟩ := table_inj hc (List.getElem?_eq_some_iff.1 hb).1 hb' he
    have hsize := size_filled (hc.cells i.loop b buffer hb)
    rw [getD_setIfInBounds (by rw [hsize]; exact ho), getD_filled]
    simp only [true_and]
    rfl
  · next hne =>
    rw [if_neg fun h => hne (by rw [h.1, h.2.1])]
    rfl

structure Reflects (p : Program) (loops : Nat) (ts : List Touch) (c : Conflicts) : Prop where
  shaped : c.Shaped p loops
  describes : ∀ loop b offset, b < p.buffers.length →
    Describes ts loop b offset (c.summary loop b offset)

theorem reflects_empty (p : Program) (loops : Nat) :
    Reflects p loops [] (empty loops p.buffers.length) := by
  refine ⟨shaped_empty p loops, fun loop b offset _ => ?_⟩
  rw [summary_empty]
  exact fun t ht => absurd ht List.not_mem_nil

def refused (c : Conflicts) (t : Touch) : Bool :=
  let u := c.use t.iteration t.buffer t.offset
  if t.isWrite then u.writeConflicts t.iteration.value else u.readConflicts t.iteration.value

def touched (c : Conflicts) (t : Touch) : CellSummary :=
  let u := c.use t.iteration t.buffer t.offset
  if t.isWrite then u.write t.iteration.value else u.read t.iteration.value

section Step

variable {ts : List Touch} {t : Touch} {buffer : Buffer} (hr : Reflects p loops ts c)
  (hord : InOrder (ts ++ [t])) (hb : p.buffers[t.buffer]? = some buffer)
include hr hord hb

theorem refused_iff (hq : Quiet ts) : c.refused t = true ↔ ∃ s ∈ ts, s.Conflicts t := by
  have hlt := (List.getElem?_eq_some_iff.1 hb).1
  obtain ⟨hu, ha⟩ := tells_current hord (hr.describes t.iteration.loop t.buffer t.offset hlt)
  rw [refused]
  cases hw : t.isWrite with
  | true => exact writeConflicts_iff hu ha hq hw
  | false => exact readConflicts_iff hu ha hq hw

theorem reflects_put (hl : t.iteration.loop < loops) (ho : t.offset < buffer.volume) :
    Reflects p loops (ts ++ [t])
      (c.put t.iteration t.buffer buffer.volume t.offset (c.touched t)) := by
  have hlt := (List.getElem?_eq_some_iff.1 hb).1
  obtain ⟨hu, ha⟩ := tells_current hord (hr.describes t.iteration.loop t.buffer t.offset hlt)
  refine ⟨shaped_put hr.shaped hl hb t.offset _, fun loop b offset hb' => ?_⟩
  rw [summary_put hr.shaped hl hb ho _ hb']
  split
  · next he =>
    obtain ⟨rfl, rfl, rfl⟩ := he
    rw [touched]
    cases hw : t.isWrite with
    | true => exact describes_touched hord (tells_write hu ha hw) ha
    | false => exact describes_touched hord (tells_read hu ha hw) ((read_around _ _).trans ha)
  · next hne => exact describes_untouched hne (hr.describes loop b offset hb')

end Step

def touches (concurrent : List Iteration) (b offset : Nat) (isWrite : Bool) : List Touch :=
  concurrent.map fun i => ⟨i, b, offset, isWrite⟩

theorem record_cons (p : Program) (b volume offset : Nat) (isWrite : Bool) (i : Iteration)
    (rest : List Iteration) :
    record p b volume offset isWrite c (i :: rest) =
      if c.refused ⟨i, b, offset, isWrite⟩ then
        Outcome.refuse (.concurrentConflict i.dim (p.bufferName b))
      else record p b volume offset isWrite
        (c.put i b volume offset (c.touched ⟨i, b, offset, isWrite⟩)) rest := by
  cases isWrite <;> rfl

variable {b offset : Nat} {isWrite : Bool} {concurrent : List Iteration} {buffer : Buffer}

theorem reflects_record {ts : List Touch} (hr : Reflects p loops ts c) (hq : Quiet ts)
    (hord : InOrder (ts ++ touches concurrent b offset isWrite)) (hb : p.buffers[b]? = some buffer)
    (ho : offset < buffer.volume) (hl : ∀ i ∈ concurrent, i.loop < loops) {c' : Conflicts}
    (h : record p b buffer.volume offset isWrite c concurrent = .ok c') :
    Quiet (ts ++ touches concurrent b offset isWrite) ∧
      Reflects p loops (ts ++ touches concurrent b offset isWrite) c' := by
  induction concurrent generalizing ts c with
  | nil =>
    cases h
    simpa [touches] using And.intro hq hr
  | cons i rest ih =>
    have happ : ts ++ touches (i :: rest) b offset isWrite =
        (ts ++ [⟨i, b, offset, isWrite⟩]) ++ touches rest b offset isWrite := by simp [touches]
    rw [happ] at hord ⊢
    have hord' : InOrder (ts ++ [⟨i, b, offset, isWrite⟩]) := (List.pairwise_append.1 hord).1
    rw [record_cons] at h
    split at h
    · cases h
    · next hok =>
      rw [refused_iff hr hord' hb hq] at hok
      exact ih (reflects_put hr hord' hb (hl i List.mem_cons_self) ho)
        (quiet_snoc.2 ⟨hq, fun s hs hst => hok ⟨s, hs, hst⟩⟩) hord
        (fun j hj => hl j (List.mem_cons_of_mem i hj)) h

theorem exists_record {ts : List Touch} (hr : Reflects p loops ts c)
    (hord : InOrder (ts ++ touches concurrent b offset isWrite)) (hb : p.buffers[b]? = some buffer)
    (ho : offset < buffer.volume) (hl : ∀ i ∈ concurrent, i.loop < loops)
    (hq : Quiet (ts ++ touches concurrent b offset isWrite)) :
    ∃ c', record p b buffer.volume offset isWrite c concurrent = .ok c' := by
  induction concurrent generalizing ts c with
  | nil => exact ⟨c, rfl⟩
  | cons i rest ih =>
    have happ : ts ++ touches (i :: rest) b offset isWrite =
        (ts ++ [⟨i, b, offset, isWrite⟩]) ++ touches rest b offset isWrite := by simp [touches]
    rw [happ] at hord hq
    have hord' : InOrder (ts ++ [⟨i, b, offset, isWrite⟩]) := (List.pairwise_append.1 hord).1
    obtain ⟨hq', hfree⟩ := quiet_snoc.1 hq.of_append
    rw [record_cons, if_neg]
    · exact ih (reflects_put hr hord' hb (hl i List.mem_cons_self) ho) hord
        (fun j hj => hl j (List.mem_cons_of_mem i hj)) hq
    · rw [refused_iff hr hord' hb hq']
      exact fun ⟨s, hs, hst⟩ => hfree s hs hst

def recordAll (p : Program) (concurrent : List Iteration) :
    List (Location × Bool) → Conflicts → Legal Conflicts
  | [], c => .ok c
  | (a, isWrite) :: rest, c => do
    let c ← record p a.1 (Dataflow.volumeOf p a.1) (a.2.getD 0) isWrite c concurrent
    recordAll p concurrent rest c

def allTouches (concurrent : List Iteration) (as : List (Location × Bool)) : List Touch :=
  as.flatMap fun a => touches concurrent a.1.1 (a.1.2.getD 0) a.2

theorem recordAll_append (as bs : List (Location × Bool)) :
    recordAll p concurrent (as ++ bs) c =
      (do let c ← recordAll p concurrent as c; recordAll p concurrent bs c) := by
  induction as generalizing c with
  | nil => rfl
  | cons a as ih =>
    rw [List.cons_append, recordAll, recordAll, bind_assoc]
    congr 1
    funext c
    exact ih

theorem volume_of_inside {a : Location} (ha : Inside p a) :
    ∃ buffer, p.buffers[a.1]? = some buffer ∧ a.2.getD 0 < buffer.volume ∧
      Dataflow.volumeOf p a.1 = buffer.volume := by
  obtain ⟨buffer, n, hb, hn, hlt⟩ := ha
  exact ⟨buffer, hb, by rw [hn]; exact hlt, by simp only [Dataflow.volumeOf, hb]⟩

theorem reflects_recordAll {as : List (Location × Bool)} {ts : List Touch} (hr : Reflects p loops ts c)
    (hq : Quiet ts) (hord : InOrder (ts ++ allTouches concurrent as)) (hin : ∀ a ∈ as, Inside p a.1)
    (hl : ∀ i ∈ concurrent, i.loop < loops) {c' : Conflicts}
    (h : recordAll p concurrent as c = .ok c') :
    Quiet (ts ++ allTouches concurrent as) ∧ Reflects p loops (ts ++ allTouches concurrent as) c' := by
  induction as generalizing ts c with
  | nil =>
    cases h
    simpa [allTouches] using And.intro hq hr
  | cons a as ih =>
    obtain ⟨next, hn, h⟩ := bind_eq_ok.1 h
    obtain ⟨buffer, hb, ho, hvol⟩ := volume_of_inside (hin a List.mem_cons_self)
    rw [hvol] at hn
    rw [allTouches, List.flatMap_cons, ← List.append_assoc] at hord ⊢
    obtain ⟨hq', hr'⟩ := reflects_record hr hq (List.pairwise_append.1 hord).1 hb ho hl hn
    exact ih hr' hq' hord (fun b hb => hin b (List.mem_cons_of_mem a hb)) h

theorem exists_recordAll {as : List (Location × Bool)} {ts : List Touch} (hr : Reflects p loops ts c)
    (hord : InOrder (ts ++ allTouches concurrent as)) (hin : ∀ a ∈ as, Inside p a.1)
    (hl : ∀ i ∈ concurrent, i.loop < loops) (hq : Quiet (ts ++ allTouches concurrent as)) :
    ∃ c', recordAll p concurrent as c = .ok c' := by
  induction as generalizing ts c with
  | nil => exact ⟨c, rfl⟩
  | cons a as ih =>
    obtain ⟨buffer, hb, ho, hvol⟩ := volume_of_inside (hin a List.mem_cons_self)
    rw [allTouches, List.flatMap_cons, ← List.append_assoc] at hord hq
    have hord' := (List.pairwise_append.1 hord).1
    obtain ⟨next, hn⟩ := exists_record hr hord' hb ho hl hq.of_append
    have hr' := (reflects_record hr hq.of_append.of_append hord' hb ho hl hn).2
    obtain ⟨c', hc'⟩ := ih hr' hord (fun b hb => hin b (List.mem_cons_of_mem a hb)) hq
    refine ⟨c', bind_eq_ok.2 ⟨next, ?_, hc'⟩⟩
    rw [hvol]
    exact hn

end Conflicts

end LoopNest
