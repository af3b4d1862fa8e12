import LoopNest.Decimal.Integer
import LoopNest.Outcome
import LoopNest.Proofs.Text.Name
import LoopNest.Proofs.Text.Words
import LoopNest.Schedule.Parser

namespace LoopNest

open Text (words before isBlank)

def Name.Legible (a : String) : Prop := a ≠ "" ∧ ∀ c ∈ a.toList, isBlank c = false ∧ c ≠ '#'

instance (a : String) : Decidable (Name.Legible a) :=
  -- decided along the name: the instance for statements about every character tries all there are
  have : Decidable (∀ c ∈ a.toList, isBlank c = false ∧ c ≠ '#') := List.decidableBAll _ _
  instDecidableAnd

theorem Name.Legible.isWord {a : String} (h : Name.Legible a) : Text.IsWord a :=
  ⟨h.1, fun c hc => (h.2 c hc).1⟩

theorem Name.legible_of_mem_words {s a : String} (h : a ∈ words (before '#' s)) : Name.Legible a := by
  obtain ⟨hword, hmem⟩ := Text.mem_words h
  exact ⟨hword.1, fun c hc => ⟨hword.2 c hc, Text.mem_before (hmem c hc)⟩⟩

theorem Name.Legible.of_extends {base a : String} (h : Name.Legible base) (ha : Name.Extends base a) :
    Name.Legible a :=
  ⟨ha.ne_empty h.1, ha.forall_mem h.2 fun _ hc => ⟨Name.not_blank_of_isTail hc, Name.ne_of_isTail hc (by decide)⟩⟩

theorem Text.IsWord.of_extends {base a : String} (h : Text.IsWord base) (ha : Name.Extends base a) :
    Text.IsWord a :=
  ⟨ha.ne_empty h.1, ha.forall_mem h.2 fun _ => Name.not_blank_of_isTail⟩

theorem Name.legible_toString (n : Nat) : Name.Legible (toString n) := by
  refine ⟨fun h => Decimal.toString_ne_nil n (congrArg String.toList h), fun c hc => ?_⟩
  have htail := Name.isTail_of_mem_toString hc
  exact ⟨Name.not_blank_of_isTail htail, Name.ne_of_isTail htail (by decide)⟩

namespace Transformation

def factor? : Transformation → Option Nat
  | tile _ n | unroll _ n | vectorize _ n => some n
  | _ => none

def FactorFits (t : Transformation) : Prop := ∀ n ∈ t.factor?, n ≤ Decimal.word32Max

instance (t : Transformation) : Decidable t.FactorFits :=
  inferInstanceAs (Decidable (∀ n ∈ t.factor?, n ≤ Decimal.word32Max))

def Legible (t : Transformation) : Prop := ∀ a ∈ t.names, Name.Legible a

theorem ofWords_keyword_operands {t : Transformation} (h : t.FactorFits) :
    ofWords (t.keyword :: t.operands) = .ok t := by
  have hfactor : ∀ n ∈ t.factor?, factor (toString n) = .ok n := by
    intro n hn
    rw [factor, Decimal.natUpTo?_toString (h n hn)]
  cases t with
  | tile d n | unroll d n | vectorize d n =>
    simp only [keyword, operands, ofWords, hfactor n rfl]
    rfl
  | interchange a b => rfl
  | fuse a b d => rfl
  | parallelize d => rfl

theorem of_factor {w : String} {f : Nat → Transformation} {t : Transformation}
    (h : (do let n ← factor w; return f n) = .ok t) : ∃ n, n ≤ Decimal.word32Max ∧ t = f n := by
  obtain ⟨n, hn, ht⟩ := bind_eq_ok.1 h
  rw [factor] at hn
  split at hn
  · next hread =>
    cases hn
    exact ⟨n, Decimal.natUpTo?_le hread, (pure_eq_ok.1 ht).symm⟩
  · cases hn

theorem of_ofWords {ws : List String} {t : Transformation} (h : ofWords ws = .ok t) :
    t.FactorFits ∧ ∀ a ∈ t.names, a ∈ ws := by
  unfold ofWords at h
  split at h
  · cases h
  · split at h
    case h_1 | h_2 | h_3 =>
      obtain ⟨n, hn, rfl⟩ := of_factor h
      simp [FactorFits, factor?, names, hn]
    case h_4 | h_5 | h_6 =>
      cases h
      simp [FactorFits, factor?, names]
    all_goals cases h

theorem operands_eq (t : Transformation) : t.operands = t.names ++ (t.factor?.map toString).toList := by
  cases t <;> rfl

theorem legible_keyword (t : Transformation) : Name.Legible t.keyword := by
  cases t <;> rw [keyword] <;> decide

theorem forall_words {P : String → Prop} {t : Transformation} (hkeyword : P t.keyword)
    (hnames : ∀ a ∈ t.names, P a) (hnumber : ∀ n : Nat, P (toString n)) :
    ∀ w ∈ t.keyword :: t.operands, P w := by
  rw [operands_eq]
  intro w hw
  rcases List.mem_cons.1 hw with rfl | hw
  · exact hkeyword
  · rcases List.mem_append.1 hw with hw | hw
    · exact hnames w hw
    · obtain ⟨n, -, rfl⟩ := Option.map_eq_some_iff.1 (Option.mem_toList.1 hw)
      exact hnumber n

theorem legible_words {t : Transformation} (h : t.Legible) :
    ∀ w ∈ t.keyword :: t.operands, Name.Legible w :=
  forall_words (legible_keyword t) h Name.legible_toString

theorem isWord_words {t : Transformation} (h : ∀ a ∈ t.names, Text.IsWord a) :
    ∀ w ∈ t.keyword :: t.operands, Text.IsWord w :=
  forall_words (legible_keyword t).isWord h fun n => (Name.legible_toString n).isWord

theorem isLine_text {t : Transformation} (h : ∀ a ∈ t.names, Text.IsWord a) : Text.IsLine t.text := by
  have hno : ∀ c, isBlank c → c ≠ ' ' → c ∉ t.text.toList := by
    intro c hblank hspace hc
    rcases Text.mem_intercalate hc with rfl | ⟨w, hw, hcw⟩
    · exact hspace rfl
    · rw [(isWord_words h w hw).2 c hcw] at hblank
      cases hblank
  exact ⟨hno _ (by decide) (by decide),
    fun hlast => hno _ (by decide) (by decide) (List.mem_of_getLast? hlast)⟩

theorem Legible.isWord {t : Transformation} (h : t.Legible) : ∀ a ∈ t.names, Text.IsWord a :=
  fun a ha => (h a ha).isWord

theorem words_text {t : Transformation} (h : t.Legible) :
    words (before '#' t.text) = t.keyword :: t.operands := by
  have hhash : '#' ∉ t.text.toList := by
    intro hc
    rcases Text.mem_intercalate hc with hc | ⟨w, hw, hc⟩
    · cases hc
    · exact ((legible_words h w hw).2 _ hc).2 rfl
  rw [Text.before_of_not_mem hhash, text, Text.words_intercalate (isWord_words h.isWord)]

theorem eq_of_words {t u : Transformation} (hkeyword : t.keyword = u.keyword) (h : t.operands = u.operands) :
    t = u := by
  have hnumber {m n : Nat} : m.repr = n.repr ↔ m = n := ⟨Name.repr_injective, congrArg Nat.repr⟩
  cases t <;> cases u <;> simp_all [keyword, operands]

theorem text_injective {t u : Transformation} (ht : ∀ a ∈ t.names, Text.IsWord a)
    (hu : ∀ a ∈ u.names, Text.IsWord a) (h : t.text = u.text) : t = u := by
  have hwords := congrArg words h
  rw [text, text, Text.words_intercalate (isWord_words ht), Text.words_intercalate (isWord_words hu)] at hwords
  exact eq_of_words (List.cons.inj hwords).1 (List.cons.inj hwords).2

end Transformation

namespace Schedule

theorem parseLines_cons_eq_ok {n : Nat} {line : String} {rest : List String} {s : Schedule} :
    parseLines n (line :: rest) = .ok s ↔
      (words (before '#' line) = [] ∧ parseLines (n + 1) rest = .ok s) ∨
      ∃ t ts, Transformation.ofWords (words (before '#' line)) = .ok t ∧
        parseLines (n + 1) rest = .ok ts ∧ s = t :: ts := by
  have hempty := Text.trim_isEmpty_iff (before '#' line)
  rw [parseLines, Transformation.parse, Text.words_trim]
  split
  · next hnone =>
    rw [hempty.1 hnone]
    simp [Transformation.ofWords]
  · next hsome =>
    rw [hempty] at hsome
    simp only [hsome, false_and, false_or]
    cases Transformation.ofWords (words (before '#' line)) with
    | error issue => simp
    | ok t =>
      simp only [bind_eq_ok, pure_eq_ok, Except.ok.injEq]
      constructor
      · rintro ⟨ts, hts, rfl⟩
        exact ⟨t, ts, rfl, hts, rfl⟩
      · rintro ⟨_, ts, rfl, hts, rfl⟩
        exact ⟨ts, hts, rfl⟩

theorem of_parseLines {n : Nat} {ls : List String} {s : Schedule} (h : parseLines n ls = .ok s) :
    ∀ t ∈ s, t.FactorFits ∧ t.Legible := by
  induction ls generalizing n s with
  | nil =>
    cases h
    simp
  | cons line ls ih =>
    rcases parseLines_cons_eq_ok.1 h with ⟨-, hrest⟩ | ⟨t, ts, ht, hrest, rfl⟩
    · exact ih hrest
    · obtain ⟨hfits, hnames⟩ := Transformation.of_ofWords ht
      exact List.forall_mem_cons.2
        ⟨⟨hfits, fun a ha => Name.legible_of_mem_words (hnames a ha)⟩, ih hrest⟩

theorem parseLines_texts {s : Schedule} (h : ∀ t ∈ s, t.FactorFits ∧ t.Legible) (n : Nat) :
    parseLines n (s.map Transformation.text) = .ok s := by
  induction s generalizing n with
  | nil => rfl
  | cons t s ih =>
    obtain ⟨⟨hfits, hlegible⟩, hrest⟩ := List.forall_mem_cons.1 h
    refine parseLines_cons_eq_ok.2 (.inr ⟨t, s, ?_, ih hrest (n + 1), rfl⟩)
    rw [Transformation.words_text hlegible, Transformation.ofWords_keyword_operands hfits]

theorem lines_text {s : Schedule} (h : ∀ t ∈ s, ∀ a ∈ t.names, Text.IsWord a) :
    Text.lines s.text = s.map Transformation.text := by
  have hjoin := Text.lines_join (List.forall_mem_map.2 fun t ht => Transformation.isLine_text (h t ht))
  rwa [List.map_map] at hjoin

theorem parse_text {s : Schedule} (h : ∀ t ∈ s, t.FactorFits ∧ t.Legible) : parse s.text = .ok s := by
  rw [parse, lines_text fun t ht => (h t ht).2.isWord, parseLines_texts h]

theorem text_injective {s s' : Schedule} (h : ∀ t ∈ s, ∀ a ∈ t.names, Text.IsWord a)
    (h' : ∀ t ∈ s', ∀ a ∈ t.names, Text.IsWord a) (htext : s.text = s'.text) : s = s' := by
  have hlines : s.map Transformation.text = s'.map Transformation.text := by
    rw [← lines_text h, ← lines_text h', htext]
  clear htext
  induction s generalizing s' with
  | nil => exact (List.map_eq_nil_iff.1 hlines.symm).symm
  | cons t s ih =>
    cases s' with
    | nil => cases hlines
    | cons u s' =>
      obtain ⟨ht, hs⟩ := List.forall_mem_cons.1 h
      obtain ⟨hu, hs'⟩ := List.forall_mem_cons.1 h'
      obtain ⟨hhead, htail⟩ := List.cons.inj hlines
      rw [Transformation.text_injective ht hu hhead, ih hs hs' htail]

/-- A schedule is read back from its text iff its names are legible, and every schedule that was read from
some text is read back from its own. -/
theorem text_roundTrip :
    (∀ s : Schedule, (∀ t ∈ s, t.FactorFits) →
      (parse s.text = .ok s ↔ ∀ t ∈ s, ∀ a ∈ t.names, Name.Legible a)) ∧
    ∀ (text : String) (s : Schedule), parse text = .ok s → parse s.text = .ok s := by
  refine ⟨fun s hfits => ⟨fun h t ht => (of_parseLines h t ht).2, fun h => ?_⟩, fun text s h => ?_⟩
  · exact parse_text fun t ht => ⟨hfits t ht, h t ht⟩
  · exact parse_text (of_parseLines h)

theorem text_roundTrip_comment :
    parse "tile i 8 # outer\n\n fuse a b j" = .ok [.tile "i" 8, .fuse "a" "b" "j"] ∧
      parse (Schedule.text [.tile "i" 8, .fuse "a" "b" "j"]) = .ok [.tile "i" 8, .fuse "a" "b" "j"] ∧
      parse (Schedule.text [.tile "i j" 8]) ≠ .ok [.tile "i j" 8] := by
  have hparse : parse "tile i 8 # outer\n\n fuse a b j" = .ok [.tile "i" 8, .fuse "a" "b" "j"] := by
    decide +kernel
  refine ⟨hparse, text_roundTrip.2 _ _ hparse, fun h => ?_⟩
  have hnames := (text_roundTrip.1 [.tile "i j" 8] (by decide)).1 h
  revert hnames
  decide +kernel

end Schedule

end LoopNest
