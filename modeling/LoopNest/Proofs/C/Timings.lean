import LoopNest.C.Benchmark
import LoopNest.Proofs.Lists
import LoopNest.Proofs.Text.Words

namespace LoopNest.Decimal

def Writes (limit : Nat) (ds : List Char) (n : Nat) : Prop :=
  ∃ digits, (ds = digits ∨ ds = '+' :: digits) ∧ digits ≠ [] ∧ (∀ c ∈ digits, isDigit c) ∧ valueOf digits = n ∧
    n ≤ limit

theorem scan_zero_eq_ok {limit n : Nat} {ds : List Char} :
    scan limit 0 ds = .ok n ↔ (∀ c ∈ ds, isDigit c) ∧ valueOf ds = n ∧ n ≤ limit := scan_eq_ok (Nat.zero_le limit)

theorem not_digits_of_plus (ds : List Char) : ¬ ∀ c ∈ '+' :: ds, isDigit c := by
  intro h
  exact absurd (h '+' List.mem_cons_self) (by decide)

theorem read_eq_ok_iff {limit n : Nat} {s : String} : read limit s = .ok n ↔ Writes limit s.toList n := by
  rw [read]
  split
  · next hempty =>
    refine iff_of_false (by simp) ?_
    rintro ⟨digits, hds, hne, -⟩
    rw [hempty] at hds
    rcases hds with rfl | hplus
    · exact hne rfl
    · cases hplus
  · next hplus =>
    refine iff_of_false (by simp) ?_
    rintro ⟨digits, hds, hne, hdigits, -⟩
    rw [hplus] at hds
    rcases hds with rfl | hsame
    · exact not_digits_of_plus _ hdigits
    · exact hne (List.cons.inj hsame).2.symm
  · next ds hplus hds =>
    rw [hds, scan_zero_eq_ok]
    constructor
    · rintro ⟨hdigits, hvalue, hle⟩
      exact ⟨ds, .inr rfl, fun hnil => hplus (by rw [hnil]), hdigits, hvalue, hle⟩
    · rintro ⟨digits, rfl | hsame, -, hdigits, hvalue, hle⟩
      · exact absurd hdigits (not_digits_of_plus ds)
      · rw [(List.cons.inj hsame).2]
        exact ⟨hdigits, hvalue, hle⟩
  · next hempty _ hplus =>
    rw [scan_zero_eq_ok]
    constructor
    · rintro ⟨hdigits, hvalue, hle⟩
      exact ⟨_, .inl rfl, hempty, hdigits, hvalue, hle⟩
    · rintro ⟨digits, rfl | hsame, -, hdigits, hvalue, hle⟩
      · exact ⟨hdigits, hvalue, hle⟩
      · exact absurd hsame (hplus digits)

theorem Writes.unique {limit m n : Nat} {ds : List Char} (hm : Writes limit ds m) (hn : Writes limit ds n) : m = n := by
  rw [← String.toList_ofList (l := ds), ← read_eq_ok_iff] at hm hn
  exact Except.ok.inj (hm.symm.trans hn)

theorem Writes.last {limit n : Nat} {ds : List Char} (h : Writes limit ds n) :
    ∃ c, ds.getLast? = some c ∧ isDigit c := by
  obtain ⟨digits, hds, hne, hdigits, -⟩ := h
  refine ⟨digits.getLast hne, ?_, hdigits _ (List.getLast_mem hne)⟩
  rcases hds with rfl | rfl
  · exact List.getLast?_eq_some_getLast hne
  · rw [List.getLast?_cons, List.getLast?_eq_some_getLast hne]
    rfl

end LoopNest.Decimal

namespace LoopNest.C

open Decimal (Writes word32Max word64Max)

section Repetition

variable {unit ds w : List Char} {tries times : Nat}

def repeated (unit : List Char) (times : Nat) : List Char := (List.replicate times unit).flatten

theorem repeated_succ (unit : List Char) (times : Nat) :
    repeated unit (times + 1) = repeated unit times ++ unit := by
  simp [repeated, List.replicate_succ']

theorem length_repeated (unit : List Char) (times : Nat) : (repeated unit times).length = times * unit.length := by
  simp [repeated]

theorem stripEnd_of_not_suffix (h : ¬ unit <:+ w) (tries : Nat) : stripEnd unit tries w = w := by
  cases tries with
  | zero => rfl
  | succ tries => rw [stripEnd, if_neg (by rwa [List.isSuffixOf_iff_suffix])]

theorem stripEnd_append (w : List Char) (tries : Nat) : stripEnd unit (tries + 1) (w ++ unit) = stripEnd unit tries w := by
  have hsuffix : unit.isSuffixOf (w ++ unit) = true := List.isSuffixOf_iff_suffix.2 (List.suffix_append w unit)
  rw [stripEnd, if_pos hsuffix, List.length_append, Nat.add_sub_cancel, List.take_left]

theorem stripEnd_repeated (hds : ¬ unit <:+ ds) (htimes : times ≤ tries) :
    stripEnd unit tries (ds ++ repeated unit times) = ds := by
  induction times generalizing tries with
  | zero => simpa [repeated] using stripEnd_of_not_suffix hds tries
  | succ times ih =>
    obtain ⟨tries, rfl⟩ : ∃ k, tries = k + 1 := ⟨tries - 1, by omega⟩
    rw [repeated_succ, ← List.append_assoc, stripEnd_append, ih (by omega)]

theorem exists_repeated (hunit : unit ≠ []) (h : w.length ≤ tries) :
    ∃ times, w = stripEnd unit tries w ++ repeated unit times ∧ (unit <:+ w → 1 ≤ times) := by
  induction tries generalizing w with
  | zero =>
    obtain rfl := List.length_eq_zero_iff.1 (Nat.le_zero.1 h)
    exact ⟨0, rfl, fun hsuffix => absurd (List.suffix_nil.1 hsuffix) hunit⟩
  | succ tries ih =>
    by_cases hsuffix : unit <:+ w
    · obtain ⟨v, rfl⟩ := hsuffix
      have hpos := List.length_pos_iff.2 hunit
      rw [List.length_append] at h
      obtain ⟨times, hv, -⟩ := ih (w := v) (by omega)
      refine ⟨times + 1, ?_, fun _ => Nat.le_add_left 1 times⟩
      rw [stripEnd_append, repeated_succ, ← List.append_assoc, ← hv]
    · exact ⟨0, by rw [stripEnd_of_not_suffix hsuffix]; simp [repeated], fun h => absurd h hsuffix⟩

end Repetition

section Quantities

variable {unit : String} {ds : List Char} {times limit n : Nat}

def Quantity (unit : String) (limit times : Nat) (w : List Char) (n : Nat) : Prop :=
  ∃ ds, w = ds ++ repeated unit.toList times ∧ Writes limit ds n

def IsUnit (unit : String) : Prop := ∃ c, unit.toList.getLast? = some c ∧ Decimal.isDigit c = false

theorem isUnit_s : IsUnit "s" := ⟨'s', rfl, rfl⟩

theorem isUnit_ns : IsUnit "ns" := ⟨'s', rfl, rfl⟩

theorem IsUnit.ne_nil (h : IsUnit unit) : unit.toList ≠ [] := by
  obtain ⟨c, hc, -⟩ := h
  intro hnil
  rw [hnil] at hc
  cases hc

theorem IsUnit.not_suffix (h : IsUnit unit) (hds : Writes limit ds n) : ¬ unit.toList <:+ ds := by
  obtain ⟨c, hc, hnot⟩ := h
  obtain ⟨d, hd, hdigit⟩ := hds.last
  rintro ⟨v, rfl⟩
  rw [List.getLast?_append, hc] at hd
  cases hd
  rw [hnot] at hdigit
  cases hdigit

theorem Quantity.stripEnd_eq (hunit : IsUnit unit) (hds : Writes limit ds n) (times : Nat) :
    stripEnd unit.toList (ds ++ repeated unit.toList times).length (ds ++ repeated unit.toList times) = ds := by
  apply stripEnd_repeated (hunit.not_suffix hds)
  rw [List.length_append, length_repeated]
  have hpos : 0 < unit.toList.length := List.length_pos_iff.2 hunit.ne_nil
  have hle := Nat.le_mul_of_pos_right times hpos
  omega

theorem Quantity.unique (hunit : IsUnit unit) {w : List Char} {times' n' : Nat} (h : Quantity unit limit times w n)
    (h' : Quantity unit limit times' w n') : times = times' ∧ n = n' := by
  obtain ⟨ds, rfl, hds⟩ := h
  obtain ⟨ds', hsame, hds'⟩ := h'
  have hnumber : ds = ds' := by
    rw [← Quantity.stripEnd_eq hunit hds times, hsame, Quantity.stripEnd_eq hunit hds' times']
  subst hnumber
  have hunits := congrArg List.length (List.append_cancel_left hsame)
  rw [length_repeated, length_repeated] at hunits
  have hpos : 0 < unit.toList.length := List.length_pos_iff.2 hunit.ne_nil
  exact ⟨Nat.eq_of_mul_eq_mul_right hpos hunits, hds.unique hds'⟩

theorem read_withoutUnit_iff (hunit : IsUnit unit) {w : String} :
    unit.toList <:+ w.toList ∧ Decimal.read limit (withoutUnit unit w) = .ok n ↔
      ∃ times, 1 ≤ times ∧ Quantity unit limit times w.toList n := by
  rw [Decimal.read_eq_ok_iff, withoutUnit, String.toList_ofList, ← String.length_toList]
  constructor
  · rintro ⟨hsuffix, hwrites⟩
    obtain ⟨times, hw, hpos⟩ := exists_repeated hunit.ne_nil (Nat.le_refl w.toList.length)
    exact ⟨times, hpos hsuffix, _, hw, hwrites⟩
  · rintro ⟨times, hpos, ds, hw, hds⟩
    obtain ⟨times, rfl⟩ : ∃ k, times = k + 1 := ⟨times - 1, by omega⟩
    have hdrop := Quantity.stripEnd_eq hunit hds (times + 1)
    rw [← hw] at hdrop
    refine ⟨?_, hdrop.symm ▸ hds⟩
    rw [hw, repeated_succ, ← List.append_assoc]
    exact List.suffix_append _ _

end Quantities

section Lines

variable {line : String} {i j s ns t : Nat}

/-- The line begins with the mark, `s` seconds and `ns` nanoseconds, each with its unit so many times over. -/
def Timing (line : String) (i j s ns : Nat) : Prop :=
  ∃ a b rest, Text.Separated line.toList ("cpu:".toList :: a :: b :: rest) ∧ Quantity "s" word64Max i a s ∧
    Quantity "ns" word32Max j b ns

theorem Timing.unique {i' j' s' ns' : Nat} (h : Timing line i j s ns) (h' : Timing line i' j' s' ns') :
    (i = i' ∧ s = s') ∧ j = j' ∧ ns = ns' := by
  obtain ⟨a, b, rest, hline, hs, hns⟩ := h
  obtain ⟨a', b', rest', hline', hs', hns'⟩ := h'
  have hwords := hline.charWords_eq.symm.trans hline'.charWords_eq
  simp only [List.cons.injEq] at hwords
  obtain ⟨-, rfl, rfl, -⟩ := hwords
  exact ⟨hs.unique isUnit_s hs', hns.unique isUnit_ns hns'⟩

theorem ofExcept_readNumber (limit : Nat) (w : String) :
    (∃ n, Decimal.read limit w = .ok n ∧ Outcome.ofExcept (readNumber limit w) = .ok n) ∨
      ∃ e, Outcome.ofExcept (readNumber limit w) = Outcome.refuse e := by
  rw [readNumber]
  cases Decimal.read limit w with
  | error e => exact .inr ⟨_, rfl⟩
  | ok n => exact .inl ⟨n, rfl, rfl⟩

theorem parseLine_eq_duration (h : Timing line i j s ns) (hi : 1 ≤ i) (hj : 1 ≤ j) :
    parseLine line = liftM (duration s ns) := by
  obtain ⟨a, b, rest, hline, hs, hns⟩ := h
  have hwords : Text.words line = "cpu:" :: String.ofList a :: String.ofList b :: rest.map String.ofList := by
    rw [Text.words_eq_iff]
    simpa [Function.comp_def] using hline
  obtain ⟨hsuffixS, hreadS⟩ := (read_withoutUnit_iff isUnit_s (w := String.ofList a)).2 ⟨i, hi, by simpa using hs⟩
  obtain ⟨hsuffixNs, hreadNs⟩ := (read_withoutUnit_iff isUnit_ns (w := String.ofList b)).2 ⟨j, hj, by simpa using hns⟩
  rw [parseLine, hwords]
  simp only [List.isSuffixOf_iff_suffix.2 hsuffixS, List.isSuffixOf_iff_suffix.2 hsuffixNs, readNumber, hreadS, hreadNs]
  rfl

theorem parseLine_cases (line : String) : (∃ e, parseLine line = Outcome.refuse e) ∨
    ∃ i j s ns, 1 ≤ i ∧ 1 ≤ j ∧ Timing line i j s ns := by
  rw [parseLine]
  split
  · next rest hwords =>
    split
    · next a b more =>
      split
      · exact .inl ⟨_, rfl⟩
      · next hunits =>
        simp only [Bool.or_eq_true, Bool.not_eq_true', not_or, Bool.not_eq_false, List.isSuffixOf_iff_suffix] at hunits
        rcases ofExcept_readNumber word64Max (withoutUnit "s" a) with ⟨s, hs, hsread⟩ | ⟨e, he⟩
        · rcases ofExcept_readNumber word32Max (withoutUnit "ns" b) with ⟨ns, hns, -⟩ | ⟨e, he⟩
          · obtain ⟨i, hi, hqs⟩ := (read_withoutUnit_iff isUnit_s).1 ⟨hunits.1, hs⟩
            obtain ⟨j, hj, hqns⟩ := (read_withoutUnit_iff isUnit_ns).1 ⟨hunits.2, hns⟩
            exact .inr ⟨i, j, s, ns, hi, hj, _, _, _, Text.words_eq_iff.1 hwords, hqs, hqns⟩
          · rw [hsread, ok_bind, he]
            exact .inl ⟨e, rfl⟩
        · rw [he]
          exact .inl ⟨e, rfl⟩
    · exact .inl ⟨_, rfl⟩
  · exact .inl ⟨_, rfl⟩

def Times (line : String) (t : Nat) : Prop :=
  ∃ s ns, Timing line 1 1 s ns ∧ s + ns / nanosecondsPerSecond ≤ word64Max ∧ t = s * nanosecondsPerSecond + ns

theorem parseLine_eq_ok_iff : parseLine line = .ok t ↔ ∃ i j s ns, 1 ≤ i ∧ 1 ≤ j ∧ Timing line i j s ns ∧
    s + ns / nanosecondsPerSecond ≤ word64Max ∧ t = s * nanosecondsPerSecond + ns := by
  constructor
  · intro h
    rcases parseLine_cases line with ⟨e, he⟩ | ⟨i, j, s, ns, hi, hj, htiming⟩
    · rw [h] at he
      cases he
    · rw [parseLine_eq_duration htiming hi hj, lift_eq_ok, duration] at h
      split at h
      · next hfits =>
        cases h
        exact ⟨i, j, s, ns, hi, hj, htiming, hfits, rfl⟩
      · cases h
  · rintro ⟨i, j, s, ns, hi, hj, htiming, hfits, rfl⟩
    rw [parseLine_eq_duration htiming hi hj, duration, if_pos hfits, lift_ok]

theorem parseLine_eq_fault_iff {f : Fault} : parseLine line = .error (.fault f) ↔ f = .durationOverflow ∧
    ∃ i j s ns, 1 ≤ i ∧ 1 ≤ j ∧ Timing line i j s ns ∧ word64Max < s + ns / nanosecondsPerSecond := by
  constructor
  · intro h
    rcases parseLine_cases line with ⟨e, he⟩ | ⟨i, j, s, ns, hi, hj, htiming⟩
    · rw [h] at he
      cases he
    · rw [parseLine_eq_duration htiming hi hj, duration] at h
      split at h
      · cases h
      · next hlarge =>
        cases h
        exact ⟨rfl, i, j, s, ns, hi, hj, htiming, Nat.lt_of_not_le hlarge⟩
  · rintro ⟨rfl, i, j, s, ns, hi, hj, htiming, hlarge⟩
    rw [parseLine_eq_duration htiming hi hj, duration, if_neg (Nat.not_le_of_lt hlarge), lift_error]

theorem reads_exactly_iff : ((∀ t, parseLine line = .ok t ↔ Times line t) ∧ ∀ f, parseLine line ≠ .error (.fault f)) ↔
    ∀ i j s ns, 1 ≤ i → 1 ≤ j → Timing line i j s ns →
      i = 1 ∧ j = 1 ∧ s + ns / nanosecondsPerSecond ≤ word64Max := by
  constructor
  · rintro ⟨hok, hfault⟩ i j s ns hi hj htiming
    have hfits : s + ns / nanosecondsPerSecond ≤ word64Max := by
      by_contra hlarge
      exact hfault _ (parseLine_eq_fault_iff.2 ⟨rfl, i, j, s, ns, hi, hj, htiming, Nat.lt_of_not_le hlarge⟩)
    obtain ⟨s', ns', honce, -⟩ := (hok _).1 (parseLine_eq_ok_iff.2 ⟨i, j, s, ns, hi, hj, htiming, hfits, rfl⟩)
    obtain ⟨⟨rfl, -⟩, rfl, -⟩ := htiming.unique honce
    exact ⟨rfl, rfl, hfits⟩
  · intro h
    refine ⟨fun t => ?_, fun f hf => ?_⟩
    · rw [parseLine_eq_ok_iff]
      constructor
      · rintro ⟨i, j, s, ns, hi, hj, htiming, hfits, rfl⟩
        obtain ⟨rfl, rfl, -⟩ := h i j s ns hi hj htiming
        exact ⟨s, ns, htiming, hfits, rfl⟩
      · rintro ⟨s, ns, htiming, hfits, rfl⟩
        exact ⟨1, 1, s, ns, Nat.le_refl 1, Nat.le_refl 1, htiming, hfits, rfl⟩
    · obtain ⟨-, i, j, s, ns, hi, hj, htiming, hlarge⟩ := parseLine_eq_fault_iff.1 hf
      obtain ⟨-, -, hfits⟩ := h i j s ns hi hj htiming
      omega

end Lines

section Runs

theorem traverses_parseLines : Traverses parseLine parseLines := ⟨rfl, fun _ _ => rfl⟩

def timingLines (stdout : String) : List String := (Text.lines stdout).filter isTimingLine

variable {runs : Nat} {stdout stderr : String}

theorem timings_eq : timings runs ⟨0, stdout, stderr⟩ = (do
    let ts ← (parseLines (timingLines stdout)).mapRefusal RunError.badLine
    if ts.length = runs then return ts else Outcome.refuse (.wrongCount runs ts.length)) := rfl

theorem timings_eq_ok_iff {ts : List Nat} : timings runs ⟨0, stdout, stderr⟩ = .ok ts ↔
    ts.length = runs ∧ List.Forall₂ (fun line t => parseLine line = .ok t) (timingLines stdout) ts := by
  rw [← traverses_parseLines.eq_ok, timings_eq, bind_eq_ok]
  constructor
  · rintro ⟨us, hus, h⟩
    split at h
    · next hcount =>
      cases h
      exact ⟨hcount, Outcome.mapRefusal_eq_ok.1 hus⟩
    · cases h
  · rintro ⟨hcount, hts⟩
    exact ⟨ts, Outcome.mapRefusal_eq_ok.2 hts, if_pos hcount⟩

theorem timings_eq_fault_iff {f : Fault} : timings runs ⟨0, stdout, stderr⟩ = .error (.fault f) ↔
    ∃ before line after, timingLines stdout = before ++ line :: after ∧ (∀ b ∈ before, ∃ t, parseLine b = .ok t) ∧
      parseLine line = .error (.fault f) := by
  rw [← traverses_parseLines.eq_error, timings_eq]
  cases parseLines (timingLines stdout) with
  | error e =>
    cases e with
    | fault g => simp [Outcome.mapRefusal, bind, Except.bind]
    | refused e => simp [Outcome.mapRefusal, bind, Except.bind]
  | ok ts =>
    simp only [Outcome.mapRefusal_ok, ok_bind]
    split <;> simp [Outcome.refuse, pure, Except.pure]

theorem harness_of_refused {e : RunError} (h : timings runs ⟨0, stdout, stderr⟩ = Outcome.refuse e) :
    ∃ message, e.toBackend = .harness message := by
  rw [timings_eq] at h
  rcases bind_eq_error.1 h with h | ⟨ts, -, h⟩
  · obtain ⟨i, -, rfl⟩ := Outcome.mapRefusal_eq_refuse.1 h
    exact ⟨_, rfl⟩
  · split at h
    · cases h
    · cases h
      exact ⟨_, rfl⟩

end Runs

/-- A line is read as the time it says exactly if no unit is repeated on it and the time is a duration. A time is read
off every line that begins with the mark, seconds and nanoseconds, however often each unit stands, unless the carry is
too much for the seconds; that fault is the only one. A process that ended well is answered by the times of all its
lines, as many as there were runs, by an error of the harness, or by the fault of the first line that is not read. -/
theorem benchmark_output_read (line : String) (runs : Nat) (stdout stderr : String) :
    (((∀ t, parseLine line = .ok t ↔ Times line t) ∧ ∀ f, parseLine line ≠ .error (.fault f)) ↔
      ∀ i j s ns, 1 ≤ i → 1 ≤ j → Timing line i j s ns →
        i = 1 ∧ j = 1 ∧ s + ns / nanosecondsPerSecond ≤ word64Max) ∧
    (∀ t, parseLine line = .ok t ↔ ∃ i j s ns, 1 ≤ i ∧ 1 ≤ j ∧ Timing line i j s ns ∧
      s + ns / nanosecondsPerSecond ≤ word64Max ∧ t = s * nanosecondsPerSecond + ns) ∧
    (∀ f, parseLine line = .error (.fault f) ↔ f = .durationOverflow ∧
      ∃ i j s ns, 1 ≤ i ∧ 1 ≤ j ∧ Timing line i j s ns ∧ word64Max < s + ns / nanosecondsPerSecond) ∧
    (∀ ts, timings runs ⟨0, stdout, stderr⟩ = .ok ts ↔
      ts.length = runs ∧ List.Forall₂ (fun line t => parseLine line = .ok t) (timingLines stdout) ts) ∧
    (∀ e, timings runs ⟨0, stdout, stderr⟩ = Outcome.refuse e → ∃ message, e.toBackend = .harness message) ∧
    ∀ f, timings runs ⟨0, stdout, stderr⟩ = .error (.fault f) ↔
      ∃ before line after, timingLines stdout = before ++ line :: after ∧
        (∀ b ∈ before, ∃ t, parseLine b = .ok t) ∧ parseLine line = .error (.fault f) :=
  ⟨reads_exactly_iff, fun _ => parseLine_eq_ok_iff, fun _ => parseLine_eq_fault_iff, fun _ => timings_eq_ok_iff,
    fun _ => harness_of_refused, fun _ => timings_eq_fault_iff⟩

theorem benchmark_output_read_twoRuns :
    timings 2 ⟨0, "cpu: 0s 1500ns\r\ncpu: +2s 1000000000ns end\ndone", ""⟩ = .ok [1500, 3000000000] ∧
    ∃ i j s ns, 1 ≤ i ∧ 1 ≤ j ∧ Timing "cpu: +2s 1000000000ns end" i j s ns ∧
      s + ns / nanosecondsPerSecond ≤ word64Max ∧ 3000000000 = s * nanosecondsPerSecond + ns := by
  have hlines : timingLines "cpu: 0s 1500ns\r\ncpu: +2s 1000000000ns end\ndone" =
      ["cpu: 0s 1500ns", "cpu: +2s 1000000000ns end"] := by decide +kernel
  have hfirst : parseLine "cpu: 0s 1500ns" = .ok 1500 := by decide +kernel
  have hsecond : parseLine "cpu: +2s 1000000000ns end" = .ok 3000000000 := by decide +kernel
  obtain ⟨-, hline, -, hruns, -⟩ := benchmark_output_read "cpu: +2s 1000000000ns end" 2
    "cpu: 0s 1500ns\r\ncpu: +2s 1000000000ns end\ndone" ""
  refine ⟨(hruns _).2 ⟨rfl, ?_⟩, (hline _).1 hsecond⟩
  rw [hlines]
  exact .cons hfirst (.cons hsecond .nil)

/-- A unit that stands twice is dropped twice, and a carry can be too much for the seconds. -/
theorem repeated_unit_read : parseLine "cpu: 1ss 5ns" = .ok 1000000005 ∧ (¬ Times "cpu: 1ss 5ns" 1000000005) ∧
    parseLine "cpu: 18446744073709551615s 1000000000ns" = .error (.fault .durationOverflow) := by
  have hwords : Text.Separated "cpu: 1ss 5ns".toList ["cpu:".toList, ['1', 's', 's'], ['5', 'n', 's']] :=
    Text.charWords_eq_iff.1 (by decide +kernel)
  have htwice : Timing "cpu: 1ss 5ns" 2 1 1 5 :=
    ⟨_, _, _, hwords, ⟨['1'], rfl, Decimal.read_eq_ok_iff.1 (by decide +kernel : Decimal.read _ "1" = .ok 1)⟩,
      ['5'], rfl, Decimal.read_eq_ok_iff.1 (by decide +kernel : Decimal.read _ "5" = .ok 5)⟩
  refine ⟨by decide +kernel, ?_, by decide +kernel⟩
  rintro ⟨s, ns, honce, -⟩
  obtain ⟨⟨htimes, -⟩, -⟩ := htwice.unique honce
  exact absurd htimes (by decide)

end LoopNest.C
