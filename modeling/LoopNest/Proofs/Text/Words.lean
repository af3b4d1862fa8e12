import LoopNest.Proofs.Lists
import LoopNest.Text.Blank
import Mathlib.Data.List.TakeWhile

namespace LoopNest.Text

def IsWord (w : String) : Prop := w ≠ "" ∧ ∀ c ∈ w.toList, isBlank c = false

theorem splitWhere_eq_splitOnP (p : Char → Bool) (s : List Char) : splitWhere p s = s.splitOnP p := by
  induction s with
  | nil => simp [splitWhere]
  | cons c r ih =>
    rw [splitWhere, List.splitOnP_cons_eq_if_modifyHead, ih]
    cases hr : r.splitOnP p with
    | nil => exact absurd hr (List.splitOnP_ne_nil p r)
    | cons w ws => rfl

theorem mem_splitWhere {p : Char → Bool} {s w : List Char} (hw : w ∈ splitWhere p s) {c : Char}
    (hc : c ∈ w) : c ∈ s ∧ p c = false := by
  induction s generalizing w with
  | nil => simp_all [splitWhere]
  | cons d r ih =>
    rw [splitWhere_eq_splitOnP, List.splitOnP_cons_eq_if_modifyHead, ← splitWhere_eq_splitOnP] at hw
    split at hw
    · rcases List.mem_cons.1 hw with rfl | hw
      · cases hc
      · exact ⟨.tail _ (ih hw hc).1, (ih hw hc).2⟩
    · next hd =>
      obtain ⟨v, vs, hv⟩ := List.exists_cons_of_ne_nil (splitWhere_ne_nil p r)
      rw [hv, List.modifyHead_cons] at hw
      rcases List.mem_cons.1 hw with rfl | hw
      · rcases List.mem_cons.1 hc with rfl | hc
        · exact ⟨.head _, by simpa using hd⟩
        · have hmem := ih (hv ▸ List.mem_cons_self) hc
          exact ⟨.tail _ hmem.1, hmem.2⟩
      · have hmem := ih (hv ▸ List.mem_cons_of_mem v hw) hc
        exact ⟨.tail _ hmem.1, hmem.2⟩

theorem splitWhere_append_cons {p : Char → Bool} {l : List Char} (hl : ∀ c ∈ l, p c = false) {c : Char} (hc : p c)
    (r : List Char) : splitWhere p (l ++ c :: r) = l :: splitWhere p r := by
  rw [splitWhere_eq_splitOnP, splitWhere_eq_splitOnP]
  exact List.splitOnP_append_cons_of_forall_mem hl _ hc r

theorem splitWhere_of_forall {p : Char → Bool} {l : List Char} (hl : ∀ c ∈ l, p c = false) :
    splitWhere p l = [l] := by
  rw [splitWhere_eq_splitOnP, List.splitOnP_eq_singleton hl]

section Words

def charWords (s : List Char) : List (List Char) := (splitWhere isBlank s).filter (fun w => !w.isEmpty)

theorem words_eq (s : String) : words s = (charWords s.toList).map String.ofList := rfl

theorem charWords_append_cons (s r : List Char) {c : Char} (hc : isBlank c) :
    charWords (s ++ c :: r) = charWords s ++ charWords r := by
  simp only [charWords, splitWhere_eq_splitOnP, List.splitOnP_append_cons s r hc, List.filter_append]

theorem charWords_cons_blank (r : List Char) {c : Char} (hc : isBlank c) :
    charWords (c :: r) = charWords r := charWords_append_cons [] r hc

theorem charWords_blank_append {b : List Char} (hb : ∀ c ∈ b, isBlank c) (s : List Char) :
    charWords (b ++ s) = charWords s := by
  induction b with
  | nil => rfl
  | cons c b ih =>
    rw [List.cons_append, charWords_cons_blank _ (hb c (.head _))]
    exact ih fun d hd => hb d (.tail _ hd)

theorem charWords_append_blank (s : List Char) {b : List Char} (hb : ∀ c ∈ b, isBlank c) :
    charWords (s ++ b) = charWords s := by
  cases b with
  | nil => rw [List.append_nil]
  | cons c b =>
    have hrest : charWords b = [] := by
      rw [← List.append_nil b, charWords_blank_append (fun d hd => hb d (.tail _ hd)) []]
      rfl
    rw [charWords_append_cons s b (hb c (.head _)), hrest, List.append_nil]

theorem charWords_of_blankFree {w : List Char} (hne : w ≠ []) (hw : ∀ c ∈ w, isBlank c = false) :
    charWords w = [w] := by
  rw [charWords, splitWhere_of_forall hw]
  simpa using hne

theorem exists_blanks_around (s : String) : ∃ pre post : List Char, (∀ c ∈ pre, isBlank c) ∧
    (∀ c ∈ post, isBlank c) ∧ s.toList = pre ++ ((trim s).toList ++ post) := by
  have hpost := List.takeWhile_append_dropWhile (p := isBlank) (l := (s.toList.dropWhile isBlank).reverse)
  refine ⟨s.toList.takeWhile isBlank, ((s.toList.dropWhile isBlank).reverse.takeWhile isBlank).reverse,
    fun c hc => List.mem_takeWhile_imp hc, ?_, ?_⟩
  · intro c hc
    exact List.mem_takeWhile_imp (List.mem_reverse.1 hc)
  · rw [trim, String.toList_ofList, ← List.reverse_append, hpost, List.reverse_reverse,
      List.takeWhile_append_dropWhile]

theorem words_trim (s : String) : words (trim s) = words s := by
  obtain ⟨pre, post, hpre, hpost, hs⟩ := exists_blanks_around s
  rw [words_eq, words_eq, hs, charWords_blank_append hpre, charWords_append_blank _ hpost]

theorem blank_of_charWords {s : List Char} (h : charWords s = []) : ∀ c ∈ s, isBlank c := by
  induction s with
  | nil => simp
  | cons d r ih =>
    by_cases hd : isBlank d
    · rw [charWords_cons_blank r hd] at h
      exact List.forall_mem_cons.2 ⟨hd, ih h⟩
    · obtain ⟨v, vs, hv⟩ := List.exists_cons_of_ne_nil (splitWhere_ne_nil isBlank r)
      rw [charWords, splitWhere, if_neg hd, hv] at h
      simp at h

theorem trim_isEmpty_iff (s : String) : (trim s).isEmpty ↔ words s = [] := by
  constructor
  · intro h
    rw [← words_trim, String.isEmpty_iff.1 h]
    rfl
  · intro h
    have hblank := blank_of_charWords (List.map_eq_nil_iff.1 h)
    rw [trim, List.dropWhile_eq_nil_iff.2 hblank]
    rfl

theorem mem_words {s w : String} (hw : w ∈ words s) :
    IsWord w ∧ ∀ c ∈ w.toList, c ∈ s.toList := by
  obtain ⟨cs, hcs, rfl⟩ := List.mem_map.1 hw
  obtain ⟨hcs, hne⟩ := List.mem_filter.1 hcs
  simp only [IsWord, String.toList_ofList]
  refine ⟨⟨fun h => ?_, fun c hc => (mem_splitWhere hcs hc).2⟩, fun c hc => (mem_splitWhere hcs hc).1⟩
  have : cs = [] := by simpa using congrArg String.toList h
  simp [this] at hne

theorem words_intercalate {ws : List String} (h : ∀ w ∈ ws, IsWord w) :
    words (" ".intercalate ws) = ws := by
  suffices charWords ([' '].intercalate (ws.map String.toList)) = ws.map String.toList by
    rw [words_eq, String.toList_intercalate]
    change List.map String.ofList (charWords ([' '].intercalate _)) = ws
    rw [this, List.map_map]
    simp [Function.comp_def]
  induction ws with
  | nil => rfl
  | cons w ws ih =>
    have hw := h w List.mem_cons_self
    have hone : charWords w.toList = [w.toList] :=
      charWords_of_blankFree (fun hnil => hw.1 (String.toList_eq_nil_iff.1 hnil)) hw.2
    cases ws with
    | nil => simpa using hone
    | cons v ws =>
      have hblank : isBlank ' ' = true := by decide
      rw [List.map_cons, List.map_cons, List.intercalate_cons_cons, ← List.map_cons, List.append_assoc,
        List.singleton_append, charWords_append_cons _ _ hblank, hone,
        ih fun u hu => h u (List.mem_cons_of_mem w hu)]
      rfl

inductive Separated : List Char → List (List Char) → Prop
  | blank {b : List Char} (hb : ∀ c ∈ b, isBlank c) : Separated b []
  | word {b w r : List Char} {ws : List (List Char)} (hb : ∀ c ∈ b, isBlank c) (hne : w ≠ [])
    (hw : ∀ c ∈ w, isBlank c = false) (hr : ∀ c ∈ r.head?, isBlank c) (hws : Separated r ws) :
    Separated (b ++ (w ++ r)) (w :: ws)

theorem Separated.charWords_eq {s : List Char} {ws : List (List Char)} (h : Separated s ws) : charWords s = ws := by
  induction h with
  | blank hb =>
    have hnil := charWords_append_blank [] hb
    rwa [List.nil_append] at hnil
  | @word b w r ws hb hne hw hr _ ih =>
    rw [charWords_blank_append hb, ← ih]
    cases r with
    | nil => rw [List.append_nil, charWords_of_blankFree hne hw]; rfl
    | cons c r =>
      have hc : isBlank c := hr c rfl
      rw [charWords_append_cons w r hc, charWords_of_blankFree hne hw, charWords_cons_blank r hc]
      rfl

theorem exists_cut (p : Char → Bool) (s : List Char) :
    ∃ l r, s = l ++ r ∧ (∀ c ∈ l, p c) ∧ ∀ c ∈ r.head?, p c = false := by
  refine ⟨s.takeWhile p, s.dropWhile p, List.takeWhile_append_dropWhile.symm, fun c hc => List.mem_takeWhile_imp hc, ?_⟩
  intro c hc
  have hstop := List.head?_dropWhile_not p s
  rw [Option.mem_def.1 hc] at hstop
  simpa using hstop

theorem exists_separated (s : List Char) : ∃ ws, Separated s ws := by
  induction hlength : s.length using Nat.strong_induction_on generalizing s with
  | _ n ih =>
    obtain ⟨b, text, rfl, hb, htext⟩ := exists_cut isBlank s
    cases text with
    | nil => exact ⟨[], by simpa using Separated.blank hb⟩
    | cons d t =>
      obtain ⟨w, r, hsplit, hw, hr⟩ := exists_cut (fun c => !isBlank c) (d :: t)
      have hne : w ≠ [] := by
        rintro rfl
        have hblank := hr d (by rw [← List.nil_append r, ← hsplit]; rfl)
        simp [htext d rfl] at hblank
      have hpos := List.length_pos_iff.2 hne
      rw [hsplit, List.length_append, List.length_append] at hlength
      obtain ⟨ws, hws⟩ := ih r.length (by omega) r rfl
      rw [hsplit]
      exact ⟨w :: ws, .word hb hne (by simpa using hw) (by simpa using hr) hws⟩

theorem charWords_eq_iff {s : List Char} {ws : List (List Char)} : charWords s = ws ↔ Separated s ws := by
  refine ⟨?_, Separated.charWords_eq⟩
  rintro rfl
  obtain ⟨ws, hws⟩ := exists_separated s
  rwa [hws.charWords_eq]

theorem words_eq_iff {s : String} {ws : List String} : words s = ws ↔ Separated s.toList (ws.map String.toList) := by
  have hchars : ∀ ws : List (List Char), (ws.map String.ofList).map String.toList = ws := fun ws => by simp
  have hstrings : ∀ ws : List String, (ws.map String.toList).map String.ofList = ws := fun ws => by simp
  rw [words_eq, ← charWords_eq_iff]
  constructor
  · rintro rfl
    exact (hchars _).symm
  · intro h
    rw [h, hstrings]

theorem mem_intercalate {ws : List String} {c : Char} (hc : c ∈ (" ".intercalate ws).toList) :
    c = ' ' ∨ ∃ w ∈ ws, c ∈ w.toList := by
  rw [String.toList_intercalate] at hc
  rcases mem_of_mem_intercalate hc with hc | ⟨l, hl, hc⟩
  · exact .inl (List.mem_singleton.1 hc)
  · obtain ⟨w, hw, rfl⟩ := List.mem_map.1 hl
    exact .inr ⟨w, hw, hc⟩

end Words

section Lines

def IsLine (l : String) : Prop := '\n' ∉ l.toList ∧ l.toList.getLast? ≠ some '\r'

theorem splitWhere_line {l : List Char} (hl : '\n' ∉ l) (r : List Char) :
    splitWhere (· == '\n') (l ++ '\n' :: r) = l :: splitWhere (· == '\n') r := by
  refine splitWhere_append_cons (fun c hc => ?_) (by decide) r
  simpa using fun hcl : c = '\n' => hl (hcl ▸ hc)

theorem closeLines_splitWhere {ls : List (List Char)}
    (h : ∀ l ∈ ls, '\n' ∉ l ∧ l.getLast? ≠ some '\r') :
    closeLines (splitWhere (· == '\n') (ls.flatMap (· ++ ['\n']))) = ls := by
  induction ls with
  | nil => rfl
  | cons l ls ih =>
    obtain ⟨hl, hreturn⟩ := h l List.mem_cons_self
    have ih := ih fun l' hl' => h l' (List.mem_cons_of_mem l hl')
    obtain ⟨next, rest, hnext⟩ := List.exists_cons_of_ne_nil
      (splitWhere_ne_nil (· == '\n') (ls.flatMap (· ++ ['\n'])))
    rw [List.flatMap_cons, List.append_assoc, List.singleton_append, splitWhere_line hl, hnext]
    rw [hnext] at ih
    rw [closeLines, ih, dropReturn, if_neg (by simpa using hreturn)]

theorem lines_join {ls : List String} (h : ∀ l ∈ ls, IsLine l) :
    lines (String.join (ls.map (· ++ "\n"))) = ls := by
  have hjoin : (String.join (ls.map (· ++ "\n"))).toList =
      (ls.map String.toList).flatMap (· ++ ['\n']) := by
    rw [String.toList_join, List.flatMap_map, List.flatMap_map]
    simp
  rw [lines, hjoin, closeLines_splitWhere (List.forall_mem_map.2 h), List.map_map]
  simp [Function.comp_def]

end Lines

theorem before_of_not_mem {c : Char} {s : String} (h : c ∉ s.toList) : before c s = s := by
  rw [before, List.takeWhile_eq_self_iff.2 ?_, String.ofList_toList]
  intro d hd
  simpa using fun hdc : d = c => h (hdc ▸ hd)

theorem mem_before {c d : Char} {s : String} (hd : d ∈ (before c s).toList) : d ≠ c := by
  rw [before, String.toList_ofList] at hd
  simpa using List.mem_takeWhile_imp hd

end LoopNest.Text
