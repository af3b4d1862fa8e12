import LoopNest.C.Unit
import Mathlib.Data.List.Induction

/-!
Marked lines do not depend on where a text is cut into chunks, as long as no chunk is empty. An empty chunk where a
line opens makes the writer forget that it does, and the line stays without its mark.
-/

namespace LoopNest.Text.LineMark

def markLines (mark : List Char) : Bool → List Char → List Char
  | _, [] => []
  | lineOpen, c :: r => (if lineOpen then mark else []) ++ c :: markLines mark (c == '\n') r

/-- The text with the mark in front of its first character and behind every line feed but one at its end. -/
def marked (mark text : String) : String := String.ofList (markLines mark.toList true text.toList)

def opensLine (text : String) : Bool := text.toList.getLast?.all (· == '\n')

def DropsMark (chunks : List String) : Prop :=
  ∃ before chunk after, chunks = before ++ "" :: chunk :: after ∧ chunk ≠ "" ∧ opensLine (String.join before) = true

section Lines

variable (mark : List Char)

theorem markLines_append (lineOpen : Bool) (s t : List Char) : markLines mark lineOpen (s ++ t) =
    markLines mark lineOpen s ++ markLines mark ((s.getLast?.map (· == '\n')).getD lineOpen) t := by
  induction s generalizing lineOpen with
  | nil => rfl
  | cons c s ih =>
    have hlast : (((c :: s).getLast?).map (· == '\n')).getD lineOpen =
        (s.getLast?.map (· == '\n')).getD (c == '\n') := by
      cases s with
      | nil => rfl
      | cons d s =>
        rw [List.getLast?_cons_cons]
        cases h : (d :: s).getLast? with
        | none => simp at h
        | some e => rfl
    rw [List.cons_append, markLines, markLines, ih, hlast, List.append_assoc, List.cons_append]

theorem markLines_eq_markInner (lineOpen : Bool) (s : List Char) :
    markLines mark lineOpen s = (if lineOpen && !s.isEmpty then mark else []) ++ markInner mark s := by
  induction s generalizing lineOpen with
  | nil => simp [markLines, markInner]
  | cons c s ih =>
    rw [markLines, markInner, ih]
    by_cases h : (c == '\n' && !s.isEmpty) = true <;> simp [h]

end Lines

section Chunks

variable (mark : String) (chunks : List String) (chunk : String)

theorem lead_eq (lineOpen : Bool) : (if lineOpen && !chunk.isEmpty then mark else "") =
    String.ofList (if lineOpen && !chunk.toList.isEmpty then mark.toList else []) := by
  have hempty : chunk.isEmpty = chunk.toList.isEmpty := by
    rw [Bool.eq_iff_iff, String.isEmpty_iff, List.isEmpty_iff, String.toList_eq_nil_iff]
  rw [hempty]
  split <;> simp

theorem write_out (w : LineMark) :
    (w.write chunk).out = w.out ++ String.ofList (markLines w.mark.toList w.lineOpen chunk.toList) := by
  rw [markLines_eq_markInner, String.ofList_append, ← lead_eq, ← String.append_assoc]
  rfl

theorem marked_append (text : String) : marked mark (text ++ chunk) =
    marked mark text ++ String.ofList (markLines mark.toList (opensLine text) chunk.toList) := by
  have hopen : ((text.toList.getLast?).map (· == '\n')).getD true = opensLine text := by
    rw [opensLine]
    cases text.toList.getLast? <;> rfl
  rw [marked, marked, String.toList_append, markLines_append, String.ofList_append, hopen]

def behind (mark : String) (chunks : List String) : LineMark := chunks.foldl write { mark }

theorem behind_snoc : behind mark (chunks ++ [chunk]) = (behind mark chunks).write chunk := by
  simp [behind]

theorem behind_mark : (behind mark chunks).mark = mark := by
  induction chunks using List.reverseRecOn with
  | nil => rfl
  | append_singleton chunks chunk ih => rw [behind_snoc]; exact ih

theorem writeAll_snoc : writeAll mark (chunks ++ [chunk]) =
    writeAll mark chunks ++ String.ofList (markLines mark.toList (behind mark chunks).lineOpen chunk.toList) := by
  change (behind mark _).out = (behind mark _).out ++ _
  rw [behind_snoc, write_out, behind_mark]

theorem join_snoc : String.join (chunks ++ [chunk]) = String.join chunks ++ chunk := by
  rw [String.join_append]
  simp [String.join]

theorem exists_last {chunk : String} (h : chunk ≠ "") : ∃ c, chunk.toList.getLast? = some c := by
  apply Option.isSome_iff_exists.1
  simpa [String.toList_eq_nil_iff] using h

theorem opensLine_append {text : String} (h : chunk ≠ "") : opensLine (text ++ chunk) = opensLine chunk := by
  obtain ⟨c, hc⟩ := exists_last h
  simp [opensLine, List.getLast?_append, hc]

theorem lineOpen_behind : (behind mark chunks).lineOpen = false ∧ opensLine (String.join chunks) = true ↔
    ∃ before, chunks = before ++ [""] ∧ opensLine (String.join before) = true := by
  cases chunks using List.reverseRecOn with
  | nil => simp [behind]
  | append_singleton before last =>
    rw [behind_snoc, join_snoc]
    by_cases hlast : last = ""
    · subst hlast
      simp [write]
    · have hopen : ((behind mark before).write last).lineOpen = opensLine last := by
        obtain ⟨c, hc⟩ := exists_last hlast
        simp [write, opensLine, hc]
      rw [hopen, opensLine_append last hlast]
      simp [hlast]

theorem lineOpen_behind_snoc :
    (behind mark (chunks ++ [chunk])).lineOpen = false ∧ opensLine (String.join (chunks ++ [chunk])) = true ↔
      chunk = "" ∧ opensLine (String.join chunks) = true := by
  rw [lineOpen_behind]
  constructor
  · rintro ⟨before, hsplit, hopen⟩
    obtain ⟨rfl, hlast⟩ := List.append_inj' hsplit rfl
    exact ⟨(List.cons.inj hlast).1, hopen⟩
  · rintro ⟨rfl, hopen⟩
    exact ⟨chunks, rfl, hopen⟩

theorem opensLine_of_lineOpen (h : (behind mark chunks).lineOpen = true) : opensLine (String.join chunks) = true := by
  cases chunks using List.reverseRecOn with
  | nil => rfl
  | append_singleton before last =>
    have hlast : last.toList.getLast? = some '\n' := by simpa [behind_snoc, write] using h
    simp [opensLine, hlast]

theorem dropsMark_snoc : DropsMark (chunks ++ [chunk]) ↔
    DropsMark chunks ∨ chunk ≠ "" ∧ (behind mark chunks).lineOpen = false ∧ opensLine (String.join chunks) = true := by
  rw [lineOpen_behind]
  constructor
  · rintro ⟨before, c, after, hsplit, hc, hopen⟩
    cases after using List.reverseRecOn with
    | nil =>
      have hsame : chunks ++ [chunk] = (before ++ [""]) ++ [c] := by simp [hsplit]
      obtain ⟨rfl, hchunk⟩ := List.append_inj' hsame rfl
      cases hchunk
      exact Or.inr ⟨hc, before, rfl, hopen⟩
    | append_singleton after last =>
      have hsame : chunks ++ [chunk] = (before ++ "" :: c :: after) ++ [last] := by simp [hsplit]
      obtain ⟨rfl, -⟩ := List.append_inj' hsame rfl
      exact Or.inl ⟨before, c, after, rfl, hc, hopen⟩
  · rintro (⟨before, c, after, rfl, hc, hopen⟩ | ⟨hc, before, rfl, hopen⟩)
    · exact ⟨before, c, after ++ [chunk], by simp, hc, hopen⟩
    · exact ⟨before, chunk, [], by simp, hc, hopen⟩

theorem length_writeAll_le : (writeAll mark chunks).length ≤ (marked mark (String.join chunks)).length := by
  induction chunks using List.reverseRecOn with
  | nil => exact Nat.zero_le _
  | append_singleton chunks chunk ih =>
    rw [writeAll_snoc, join_snoc, marked_append, String.length_append, String.length_append, String.length_ofList,
      String.length_ofList, markLines_eq_markInner, markLines_eq_markInner]
    by_cases hopen : (behind mark chunks).lineOpen = true
    · rw [hopen, opensLine_of_lineOpen mark chunks hopen]
      omega
    · simp only [hopen, Bool.false_and, Bool.false_eq_true, if_false, List.nil_append, List.length_append]
      omega

theorem writeAll_snoc_eq_marked_iff :
    writeAll mark (chunks ++ [chunk]) = marked mark (String.join (chunks ++ [chunk])) ↔
      writeAll mark chunks = marked mark (String.join chunks) ∧
      (mark = "" ∨ ¬ (chunk ≠ "" ∧ (behind mark chunks).lineOpen = false ∧ opensLine (String.join chunks) = true)) := by
  rw [writeAll_snoc, join_snoc, marked_append]
  by_cases hdrops : chunk ≠ "" ∧ (behind mark chunks).lineOpen = false ∧ opensLine (String.join chunks) = true
  · obtain ⟨hchunk, hclosed, hopen⟩ := hdrops
    have hnonempty : chunk.toList.isEmpty = false := by simpa using hchunk
    simp only [hchunk, hclosed, hopen, ne_eq, not_false_eq_true, and_self, not_true_eq_false, or_false]
    by_cases hmark : mark = ""
    · simp [markLines_eq_markInner, hmark, String.append_left_inj]
    · refine iff_of_false (fun hsame => hmark ?_) fun h => hmark h.2
      -- what was written is short of the mark at this place, and nothing written before makes up for it
      have hlength := congrArg String.length hsame
      simp only [String.length_append, String.length_ofList, markLines_eq_markInner, hnonempty, Bool.not_false,
        Bool.and_true, Bool.false_eq_true, if_false, if_true, List.length_append, List.length_nil,
        String.length_toList] at hlength
      have hle := length_writeAll_le mark chunks
      have hzero : mark.length = 0 := by omega
      simpa using hzero
  · have hsame : markLines mark.toList (behind mark chunks).lineOpen chunk.toList =
        markLines mark.toList (opensLine (String.join chunks)) chunk.toList := by
      by_cases hchunk : chunk = ""
      · simp [hchunk, markLines]
      · have hagree : (behind mark chunks).lineOpen = opensLine (String.join chunks) := by
          cases hbehind : (behind mark chunks).lineOpen with
          | true => exact (opensLine_of_lineOpen mark chunks hbehind).symm
          | false => simpa [hchunk, hbehind] using hdrops
        rw [hagree]
    rw [hsame, String.append_left_inj, and_iff_left (Or.inr hdrops)]

end Chunks

/-- What is written is the text with its lines marked, however it is cut into chunks, unless a chunk that opens a line
comes behind an empty one. -/
theorem writeAll_eq_marked_iff (mark : String) (chunks : List String) :
    writeAll mark chunks = marked mark (String.join chunks) ↔ mark = "" ∨ ¬ DropsMark chunks := by
  induction chunks using List.reverseRecOn with
  | nil =>
    have hkept : ¬ DropsMark [] := by
      rintro ⟨before, chunk, after, hsplit, -⟩
      simp at hsplit
    exact iff_of_true rfl (Or.inr hkept)
  | append_singleton chunks chunk ih =>
    rw [writeAll_snoc_eq_marked_iff, ih, dropsMark_snoc mark, not_or, or_and_left]

/-- An empty chunk behind a line feed costs the next line its mark. -/
theorem empty_chunk_drops_mark : writeAll "// " ["a\n", "", "b"] = "// a\nb" ∧
    marked "// " (String.join ["a\n", "", "b"]) = "// a\n// b" := by decide

end LoopNest.Text.LineMark

namespace LoopNest.C

open Text.LineMark

theorem comment_eq_marked_iff (p : Program) (s : Schedule) :
    comment p s = marked "// " (p.name ++ "\n" ++ s.text) ↔ p.name ≠ "" := by
  have hjoin : String.join (([] ++ [p.name]) ++ ["\n"] ++ [s.text]) = p.name ++ "\n" ++ s.text := by simp [String.join]
  have hmark : ¬ "// " = "" := by decide
  rw [← hjoin]
  change writeAll "// " (([] ++ [p.name]) ++ ["\n"] ++ [s.text]) = _ ↔ _
  simp only [writeAll_snoc_eq_marked_iff, lineOpen_behind_snoc, hmark, false_or]
  have hstart : (behind "// " []).lineOpen = true := rfl
  have hopen : opensLine "" = true := rfl
  have hnone : writeAll "// " [] = marked "// " (String.join []) := rfl
  have hfeed : ¬ "\n" = "" := by decide
  simp [hstart, hopen, hnone, hfeed]

end LoopNest.C
