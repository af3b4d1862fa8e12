import LoopNest.Dataflow.Check
import LoopNest.Proofs.Dataflow.Flow
import LoopNest.Proofs.Kernel.Activation

/-!
Summaries of cells decide conflicts. What is kept of the accesses so far (one activation, its last writer,
its first reader, whether there are other readers) suffices to tell whether a new access conflicts with any
of them, provided activations come in order and there was no conflict before.
-/

namespace LoopNest

structure Touch where
  iteration : Iteration
  buffer : Nat
  offset : Nat
  isWrite : Bool

namespace Touch

def At (t : Touch) (loop buffer offset : Nat) : Prop :=
  t.iteration.loop = loop ∧ t.buffer = buffer ∧ t.offset = offset

def Conflicts (s t : Touch) : Prop :=
  s.At t.iteration.loop t.buffer t.offset ∧ s.iteration.around = t.iteration.around ∧
    s.iteration.value ≠ t.iteration.value ∧ (s.isWrite = true ∨ t.isWrite = true)

theorem Conflicts.symm {s t : Touch} (h : s.Conflicts t) : t.Conflicts s := by
  obtain ⟨⟨hl, hb, ho⟩, ha, hv, hw⟩ := h
  exact ⟨⟨hl.symm, hb.symm, ho.symm⟩, ha.symm, hv.symm, hw.symm⟩

theorem not_conflicts_self (t : Touch) : ¬ t.Conflicts t := fun h => h.2.2.1 rfl

def Quiet (ts : List Touch) : Prop := ∀ s ∈ ts, ∀ t ∈ ts, ¬ s.Conflicts t

theorem quiet_nil : Quiet [] := fun _ h => absurd h List.not_mem_nil

theorem Quiet.of_append {ts us : List Touch} (h : Quiet (ts ++ us)) : Quiet ts :=
  fun s hs t ht => h s (List.mem_append_left us hs) t (List.mem_append_left us ht)

theorem quiet_snoc {ts : List Touch} {t : Touch} :
    Quiet (ts ++ [t]) ↔ Quiet ts ∧ ∀ s ∈ ts, ¬ s.Conflicts t := by
  constructor
  · exact fun h => ⟨h.of_append, fun s hs => h s (List.mem_append_left _ hs) t (by simp)⟩
  · rintro ⟨hq, hn⟩ s hs u hu
    rcases List.mem_append.1 hs with hs | hs <;> rcases List.mem_append.1 hu with hu | hu
    · exact hq s hs u hu
    · rw [List.mem_singleton.1 hu]
      exact hn s hs
    · rw [List.mem_singleton.1 hs]
      exact fun h => hn u hu h.symm
    · rw [List.mem_singleton.1 hs, List.mem_singleton.1 hu]
      exact not_conflicts_self t

def InOrder (ts : List Touch) : Prop :=
  ts.Pairwise fun s t => s.iteration.loop = t.iteration.loop →
    s.iteration.around.Precedes t.iteration.around

end Touch

open Touch

namespace CellSummary

/-- What a summary says about the touches of a cell in its activation. -/
structure Tells (ts : List Touch) (loop buffer offset : Nat) (u : CellSummary) : Prop where
  writer : ∀ w, u.writer = some w → ∃ t ∈ ts, t.At loop buffer offset ∧ t.iteration.around = u.around ∧
    t.isWrite = true ∧ t.iteration.value = w
  noWriter : u.writer = none → ∀ t ∈ ts, t.At loop buffer offset → t.iteration.around = u.around →
    t.isWrite = false
  reader : ∀ r, u.reader = some r → ∃ t ∈ ts, t.At loop buffer offset ∧ t.iteration.around = u.around ∧
    t.isWrite = false ∧ t.iteration.value = r
  noReader : u.reader = none → ∀ t ∈ ts, t.At loop buffer offset → t.iteration.around = u.around →
    t.isWrite = true
  many : u.manyReaders = true ↔ ∃ t ∈ ts, t.At loop buffer offset ∧ t.iteration.around = u.around ∧
    t.isWrite = false ∧ u.reader ≠ some t.iteration.value

def Describes (ts : List Touch) (loop buffer offset : Nat) : Option CellSummary → Prop
  | none => ∀ t ∈ ts, ¬ t.At loop buffer offset
  | some u => u.Tells ts loop buffer offset ∧
    (∃ t ∈ ts, t.At loop buffer offset ∧ t.iteration.around = u.around) ∧
    ∀ t ∈ ts, t.At loop buffer offset → t.iteration.around.Precedes u.around

theorem otherThan_eq_true {v : Int} {o : Option Int} :
    otherThan v o = true ↔ ∃ w, o = some w ∧ w ≠ v := by
  cases o <;> simp [otherThan]

theorem tells_fresh {ts : List Touch} {loop buffer offset : Nat} {around : Env}
    (h : ∀ t ∈ ts, t.At loop buffer offset → t.iteration.around ≠ around) :
    Tells ts loop buffer offset { around } where
  writer w hw := by cases hw
  noWriter _ t ht hat ha := absurd ha (h t ht hat)
  reader r hr := by cases hr
  noReader _ t ht hat ha := absurd ha (h t ht hat)
  many := ⟨(nomatch ·), fun ⟨t, ht, hat, ha, _⟩ => absurd ha (h t ht hat)⟩

theorem tells_current {ts : List Touch} {t : Touch} (hord : InOrder (ts ++ [t])) {s : Option CellSummary}
    (hs : Describes ts t.iteration.loop t.buffer t.offset s) :
    (current t.iteration.around s).Tells ts t.iteration.loop t.buffer t.offset ∧
      (current t.iteration.around s).around = t.iteration.around := by
  cases s with
  | none => exact ⟨tells_fresh fun u hu hat => absurd hat (hs u hu), rfl⟩
  | some u =>
    obtain ⟨htells, ⟨x, hx, hxat, hxa⟩, hlast⟩ := hs
    by_cases ha : u.around = t.iteration.around
    · rw [current, if_pos ha]
      exact ⟨htells, ha⟩
    · rw [current, if_neg ha]
      refine ⟨tells_fresh ?_, rfl⟩
      -- If the activation of `t` were an old one, it would both precede the recorded one and follow it.
      intro y hy hyat hya
      have hxt := (List.pairwise_append.1 hord).2.2 x hx t (List.mem_singleton_self t) hxat.1
      have hyu := hlast y hy hyat
      rw [hxa] at hxt
      rw [hya] at hyu
      exact ha (hxt.antisymm hyu)

@[simp] theorem read_around (u : CellSummary) (v : Int) : (u.read v).around = u.around := by
  unfold read
  split
  · rfl
  · split <;> rfl

@[simp] theorem read_writer (u : CellSummary) (v : Int) : (u.read v).writer = u.writer := by
  unfold read
  split
  · rfl
  · split <;> rfl

@[simp] theorem read_reader (u : CellSummary) (v : Int) :
    (u.read v).reader = some (u.reader.getD v) := by
  unfold read
  split
  · next h => rw [h, Option.getD_none]
  · next r h => split <;> rw [h, Option.getD_some]

@[simp] theorem read_manyReaders (u : CellSummary) (v : Int) :
    (u.read v).manyReaders = (u.manyReaders || otherThan v u.reader) := by
  unfold read
  split
  · next h => simp [h, otherThan]
  · next r h =>
    split
    · next hne => simp [h, otherThan, hne]
    · next he => simp [h, otherThan, he]

section Step

variable {ts : List Touch} {t : Touch} {u : CellSummary}
  (hu : u.Tells ts t.iteration.loop t.buffer t.offset) (ha : u.around = t.iteration.around)
include hu ha

theorem conflicts_of_other_writer {w : Int} (hw : u.writer = some w) (hne : w ≠ t.iteration.value) :
    ∃ s ∈ ts, s.Conflicts t := by
  obtain ⟨s, hs, hat, hsa, hswrite, rfl⟩ := hu.writer w hw
  exact ⟨s, hs, hat, hsa.trans ha, hne, Or.inl hswrite⟩

theorem writer_of_write (hq : Quiet ts) {s : Touch} (hs : s ∈ ts)
    (hat : s.At t.iteration.loop t.buffer t.offset) (hsa : s.iteration.around = t.iteration.around)
    (hswrite : s.isWrite = true) : u.writer = some s.iteration.value := by
  cases hw : u.writer with
  | none =>
    have := hu.noWriter hw s hs hat (hsa.trans ha.symm)
    rw [hswrite] at this
    cases this
  | some w =>
    obtain ⟨x, hx, hxat, hxa, hxwrite, rfl⟩ := hu.writer w hw
    -- The recorded writer wrote in the same activation, so another iteration would have conflicted.
    by_contra hne
    refine hq x hx s hs ⟨⟨?_, ?_, ?_⟩, ?_, fun h => hne (congrArg some h), Or.inl hxwrite⟩
    · exact hxat.1.trans hat.1.symm
    · exact hxat.2.1.trans hat.2.1.symm
    · exact hxat.2.2.trans hat.2.2.symm
    · exact hxa.trans (ha.trans hsa.symm)

theorem readConflicts_iff (hq : Quiet ts) (hread : t.isWrite = false) :
    u.readConflicts t.iteration.value = true ↔ ∃ s ∈ ts, s.Conflicts t := by
  rw [readConflicts, otherThan_eq_true]
  constructor
  · rintro ⟨w, hw, hne⟩
    exact conflicts_of_other_writer hu ha hw hne
  · rintro ⟨s, hs, hat, hsa, hne, hwrite⟩
    rw [hread] at hwrite
    exact ⟨_, writer_of_write hu ha hq hs hat hsa (hwrite.resolve_right (by simp)), hne⟩

theorem writeConflicts_iff (hq : Quiet ts) (hwrite : t.isWrite = true) :
    u.writeConflicts t.iteration.value = true ↔ ∃ s ∈ ts, s.Conflicts t := by
  simp only [writeConflicts, Bool.or_eq_true, Bool.and_eq_true, otherThan_eq_true]
  constructor
  · rintro ((⟨w, hw, hne⟩ | ⟨r, hr, hne⟩) | ⟨hsome, hmany⟩)
    · exact conflicts_of_other_writer hu ha hw hne
    · obtain ⟨s, hs, hat, hsa, -, rfl⟩ := hu.reader r hr
      exact ⟨s, hs, hat, hsa.trans ha, hne, Or.inr hwrite⟩
    · -- Of two readers one is in another iteration than `t`.
      obtain ⟨r, hr⟩ := Option.isSome_iff_exists.1 hsome
      obtain ⟨s, hs, hat, hsa, -, hne⟩ := hu.many.1 hmany
      rw [hr] at hne
      by_cases hrt : r = t.iteration.value
      · exact ⟨s, hs, hat, hsa.trans ha, fun h => hne (congrArg some (hrt.trans h.symm)), Or.inr hwrite⟩
      · obtain ⟨x, hx, hxat, hxa, -, rfl⟩ := hu.reader r hr
        exact ⟨x, hx, hxat, hxa.trans ha, hrt, Or.inr hwrite⟩
  · rintro ⟨s, hs, hat, hsa, hne, -⟩
    cases hsw : s.isWrite with
    | true => exact Or.inl (Or.inl ⟨_, writer_of_write hu ha hq hs hat hsa hsw, hne⟩)
    | false =>
      cases hr : u.reader with
      | none =>
        have := hu.noReader hr s hs hat (hsa.trans ha.symm)
        rw [hsw] at this
        cases this
      | some r =>
        by_cases hrt : r = t.iteration.value
        · refine Or.inr ⟨rfl, hu.many.2 ⟨s, hs, hat, hsa.trans ha.symm, hsw, ?_⟩⟩
          rw [hr, hrt]
          exact fun h => hne (Option.some.inj h).symm
        · exact Or.inl (Or.inr ⟨r, rfl, hrt⟩)

theorem tells_write (hwrite : t.isWrite = true) :
    (u.write t.iteration.value).Tells (ts ++ [t]) t.iteration.loop t.buffer t.offset where
  writer w hw := by
    cases hw
    exact ⟨t, by simp, ⟨rfl, rfl, rfl⟩, ha.symm, hwrite, rfl⟩
  noWriter hw := by cases hw
  reader r hr := by
    obtain ⟨s, hs, h⟩ := hu.reader r hr
    exact ⟨s, List.mem_append_left _ hs, h⟩
  noReader hr s hs hat hsa := by
    rcases List.mem_append.1 hs with hs | hs
    · exact hu.noReader hr s hs hat hsa
    · rw [List.mem_singleton.1 hs]
      exact hwrite
  many := by
    rw [write, hu.many]
    constructor
    · rintro ⟨s, hs, h⟩
      exact ⟨s, List.mem_append_left _ hs, h⟩
    · rintro ⟨s, hs, hat, hsa, hread, hne⟩
      rcases List.mem_append.1 hs with hs | hs
      · exact ⟨s, hs, hat, hsa, hread, hne⟩
      · rw [List.mem_singleton.1 hs, hwrite] at hread
        cases hread

theorem tells_read (hread : t.isWrite = false) :
    (u.read t.iteration.value).Tells (ts ++ [t]) t.iteration.loop t.buffer t.offset where
  writer w hw := by
    rw [read_writer] at hw
    obtain ⟨s, hs, hat, hsa, h⟩ := hu.writer w hw
    exact ⟨s, List.mem_append_left _ hs, hat, by rw [read_around, hsa], h⟩
  noWriter hw s hs hat hsa := by
    rw [read_writer] at hw
    rw [read_around] at hsa
    rcases List.mem_append.1 hs with hs | hs
    · exact hu.noWriter hw s hs hat hsa
    · rw [List.mem_singleton.1 hs]
      exact hread
  reader r hr := by
    rw [read_reader, Option.some.injEq] at hr
    rw [read_around]
    cases hur : u.reader with
    | none =>
      rw [hur, Option.getD_none] at hr
      exact ⟨t, by simp, ⟨rfl, rfl, rfl⟩, ha.symm, hread, hr⟩
    | some q =>
      rw [hur, Option.getD_some] at hr
      obtain ⟨s, hs, h⟩ := hu.reader q hur
      exact ⟨s, List.mem_append_left _ hs, hr ▸ h⟩
  noReader hr := by
    rw [read_reader] at hr
    cases hr
  many := by
    -- the first reader stays the same, so another one is new or is in another iteration than the first
    rw [read_manyReaders, read_around, read_reader, Bool.or_eq_true, hu.many, otherThan_eq_true]
    constructor
    · rintro (⟨s, hs, hat, hsa, hsr, hne⟩ | ⟨r, hr, hne⟩)
      · refine ⟨s, List.mem_append_left _ hs, hat, hsa, hsr, ?_⟩
        cases hur : u.reader with
        | none => exact absurd (hu.noReader hur s hs hat hsa) (by simp [hsr])
        | some q => rwa [hur] at hne
      · refine ⟨t, by simp, ⟨rfl, rfl, rfl⟩, ha.symm, hread, ?_⟩
        rw [hr, Option.getD_some]
        exact fun h => hne (Option.some.inj h)
    · rintro ⟨s, hs, hat, hsa, hsr, hne⟩
      rcases List.mem_append.1 hs with hs | hs
      · left
        refine ⟨s, hs, hat, hsa, hsr, ?_⟩
        cases hur : u.reader with
        | none => simp
        | some q => rwa [hur] at hne
      · right
        rw [List.mem_singleton.1 hs] at hne
        cases hur : u.reader with
        | none => exact absurd (by rw [hur, Option.getD_none]) hne
        | some q =>
          rw [hur, Option.getD_some] at hne
          exact ⟨q, rfl, fun h => hne (congrArg some h)⟩

end Step

theorem describes_touched {ts : List Touch} {t : Touch} (hord : InOrder (ts ++ [t])) {u : CellSummary}
    (hu : u.Tells (ts ++ [t]) t.iteration.loop t.buffer t.offset)
    (ha : u.around = t.iteration.around) :
    Describes (ts ++ [t]) t.iteration.loop t.buffer t.offset (some u) := by
  refine ⟨hu, ⟨t, by simp, ⟨rfl, rfl, rfl⟩, ha.symm⟩, ?_⟩
  intro s hs hat
  rw [ha]
  rcases List.mem_append.1 hs with hs | hs
  · exact (List.pairwise_append.1 hord).2.2 s hs t (List.mem_singleton_self t) hat.1
  · rw [List.mem_singleton.1 hs]
    exact Env.precedes_refl _

theorem describes_untouched {ts : List Touch} {t : Touch} {loop buffer offset : Nat}
    (ht : ¬ t.At loop buffer offset) {s : Option CellSummary} (hs : Describes ts loop buffer offset s) :
    Describes (ts ++ [t]) loop buffer offset s := by
  have hmem : ∀ x ∈ ts ++ [t], x.At loop buffer offset → x ∈ ts := by
    intro x hx hat
    rcases List.mem_append.1 hx with hx | hx
    · exact hx
    · exact absurd (List.mem_singleton.1 hx ▸ hat) ht
  cases s with
  | none => exact fun x hx hat => hs x (hmem x hx hat) hat
  | some u =>
    obtain ⟨hu, ⟨y, hy, h⟩, hlast⟩ := hs
    refine ⟨?_, ⟨y, List.mem_append_left _ hy, h⟩, fun x hx hat => hlast x (hmem x hx hat) hat⟩
    constructor
    · intro w hw
      obtain ⟨x, hx, h⟩ := hu.writer w hw
      exact ⟨x, List.mem_append_left _ hx, h⟩
    · exact fun hw x hx hat => hu.noWriter hw x (hmem x hx hat) hat
    · intro r hr
      obtain ⟨x, hx, h⟩ := hu.reader r hr
      exact ⟨x, List.mem_append_left _ hx, h⟩
    · exact fun hr x hx hat => hu.noReader hr x (hmem x hx hat) hat
    · rw [hu.many]
      constructor
      · rintro ⟨x, hx, h⟩
        exact ⟨x, List.mem_append_left _ hx, h⟩
      · rintro ⟨x, hx, hat, h⟩
        exact ⟨x, hmem x hx hat, hat, h⟩

end CellSummary

end LoopNest
