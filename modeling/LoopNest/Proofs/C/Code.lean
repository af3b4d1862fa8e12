import LoopNest.Proofs.C.Formulas
import Mathlib.Data.List.Flatten

namespace LoopNest.C

inductive Code where
  | assign (ts : List Token) (subscripts : List (String × Formula))
  | loop (counter : String) (first goOn : Formula) (body : List Code)

structure Scan where
  found : List (String × Formula)
  last : Option String
  index : Option (List Token)

namespace Scan

def wordOf : Token → Option String
  | .word s => some s
  | _ => none

def step (s : Scan) (t : Token) : Option Scan :=
  match s.index with
  | none =>
    if t = .mark '[' then s.last.map fun _ => { s with index := some [] }
    else if t = .mark ']' then none
    else some { s with last := wordOf t }
  | some ts =>
    if t = .mark '[' then none
    else if t = .mark ']' then do
      let array ← s.last
      let q ← Formula.read ts
      return ⟨s.found ++ [(array, q)], none, none⟩
    else some { s with index := some (ts ++ [t]) }

end Scan

def readSubscripts (ts : List Token) : Option (List (String × Formula)) := do
  let s ← ts.foldlM Scan.step ⟨[], none, none⟩
  if s.index.isNone then some s.found else none

def readLoopHead : List Token → Option (String × Formula × Formula)
  | .word "for" :: .mark '(' :: .word "int64_t" :: .word v :: .mark '=' :: rest =>
    match rest.splitOnP (· = .mark ';') with
    | [first, goOn, update] =>
      if update = [.word v, .pair '+' '+', .mark ')'] then do
        let first ← Formula.read first
        let goOn ← Formula.read goOn
        return (v, first, goOn)
      else none
    | _ => none
  | _ => none

structure Opened where
  before : List Code
  counter : String
  first : Formula
  goOn : Formula

structure Body where
  around : List Opened
  code : List Code
  pending : List Token

namespace Body

def opened (b : Body) : Option Body := do
  let (counter, first, goOn) ← readLoopHead b.pending
  return ⟨⟨b.code, counter, first, goOn⟩ :: b.around, [], []⟩

def closed (b : Body) : Option Body :=
  match b.pending, b.around with
  | [], o :: around => some ⟨around, o.before ++ [.loop o.counter o.first o.goOn b.code], []⟩
  | _, _ => none

def ended (b : Body) : Option Body := do
  let subscripts ← readSubscripts b.pending
  return ⟨b.around, b.code ++ [.assign b.pending subscripts], []⟩

def step (b : Body) (t : Token) : Option Body :=
  if t = .mark '\x7b' then b.opened
  else if t = .mark '\x7d' then b.closed
  else if t = .mark ';' ∧ b.pending.head? ≠ some (.word "for") then b.ended
  else some { b with pending := b.pending ++ [t] }

def finish (b : Body) : Option (List Code) :=
  if b.around.isEmpty && b.pending.isEmpty then some b.code else none

end Body

def readKernel (ts : List Token) : Option (List Code) :=
  let body := (ts.dropWhile (· ≠ .mark '\x7b')).drop 1
  if body.getLast? = some (.mark '\x7d') then (body.dropLast.foldlM Body.step ⟨[], [], []⟩).bind Body.finish
  else none

section Subscripts

def Scans (ts : List Token) (subscripts : List (String × Formula)) : Prop :=
  ∀ found last, ∃ last', ts.foldlM Scan.step ⟨found, last, none⟩ = some ⟨found ++ subscripts, last', none⟩

def isBracket (t : Token) : Bool := t == .mark '[' || t == .mark ']'

theorem scans_nil : Scans [] [] := fun found last => ⟨last, by simp⟩

theorem Scans.append {ts us : List Token} {as bs : List (String × Formula)} (ht : Scans ts as) (hu : Scans us bs) :
    Scans (ts ++ us) (as ++ bs) := by
  intro found last
  obtain ⟨last', hts⟩ := ht found last
  obtain ⟨last'', hus⟩ := hu (found ++ as) last'
  exact ⟨last'', by rw [foldlM_append_some hts, hus, List.append_assoc]⟩

theorem scans_token {t : Token} (h : isBracket t = false) : Scans [t] [] := by
  intro found last
  simp only [isBracket, Bool.or_eq_false_iff, beq_eq_false_iff_ne] at h
  exact ⟨Scan.wordOf t, by simp [Scan.step, h]⟩

theorem scans_plain {ts : List Token} (h : ∀ t ∈ ts, isBracket t = false) : Scans ts [] := by
  induction ts with
  | nil => exact scans_nil
  | cons t ts ih =>
    obtain ⟨ht, hts⟩ := List.forall_mem_cons.1 h
    exact (scans_token ht).append (ih hts)

theorem foldlM_index {ts : List Token} (h : ∀ t ∈ ts, isBracket t = false) (found : List (String × Formula))
    (last : Option String) (us : List Token) :
    ts.foldlM Scan.step ⟨found, last, some us⟩ = some ⟨found, last, some (us ++ ts)⟩ := by
  induction ts generalizing us with
  | nil => simp
  | cons t ts ih =>
    obtain ⟨ht, hts⟩ := List.forall_mem_cons.1 h
    simp only [isBracket, Bool.or_eq_false_iff, beq_eq_false_iff_ne] at ht
    have hstep : Scan.step ⟨found, last, some us⟩ t = some ⟨found, last, some (us ++ [t])⟩ := by
      simp [Scan.step, ht]
    rw [foldlM_cons_some hstep, ih hts, List.append_assoc, List.singleton_append]

theorem scans_subscript (array : String) {ts : List Token} (hplain : ∀ t ∈ ts, isBracket t = false) {q : Formula}
    (h : Formula.read ts = some q) : Scans (.word array :: .mark '[' :: (ts ++ [.mark ']'])) [(array, q)] := by
  intro found last
  have hword : Scan.step ⟨found, last, none⟩ (.word array) = some ⟨found, some array, none⟩ := by
    simp [Scan.step, Scan.wordOf]
  have hopen : Scan.step ⟨found, some array, none⟩ (.mark '[') = some ⟨found, some array, some []⟩ := by
    simp [Scan.step]
  have hclose : Scan.step ⟨found, some array, some ts⟩ (.mark ']') = some ⟨found ++ [(array, q)], none, none⟩ := by
    simp [Scan.step, h]
  refine ⟨none, ?_⟩
  rw [foldlM_cons_some hword, foldlM_cons_some hopen, foldlM_append_some (foldlM_index hplain _ _ _), List.nil_append,
    foldlM_cons_some hclose]
  rfl

theorem readSubscripts_of_scans {ts : List Token} {subscripts : List (String × Formula)} (h : Scans ts subscripts) :
    readSubscripts ts = some subscripts := by
  obtain ⟨last, hlast⟩ := h [] none
  rw [readSubscripts, hlast]
  rfl

end Subscripts

section Bodies

def Reads (ts : List Token) (code : List Code) : Prop :=
  ∀ around before, ts.foldlM Body.step ⟨around, before, []⟩ = some ⟨around, before ++ code, []⟩

theorem reads_nil : Reads [] [] := fun around before => by simp

theorem Reads.append {ts us : List Token} {cs ds : List Code} (ht : Reads ts cs) (hu : Reads us ds) :
    Reads (ts ++ us) (cs ++ ds) := by
  intro around before
  rw [foldlM_append_some (ht around before), hu, List.append_assoc]

def isBrace (t : Token) : Bool := t == .mark '\x7b' || t == .mark '\x7d'

theorem step_pending {b : Body} {t : Token} (hbrace : isBrace t = false)
    (hend : t = .mark ';' → b.pending.head? = some (.word "for")) :
    b.step t = some { b with pending := b.pending ++ [t] } := by
  simp only [isBrace, Bool.or_eq_false_iff, beq_eq_false_iff_ne] at hbrace
  have hgo : ¬ (t = .mark ';' ∧ b.pending.head? ≠ some (.word "for")) := fun h => h.2 (hend h.1)
  rw [Body.step, if_neg hbrace.1, if_neg hbrace.2, if_neg hgo]

theorem foldlM_pending {ts : List Token} (hbrace : ∀ t ∈ ts, isBrace t = false) {b : Body}
    (hend : .mark ';' ∈ ts → b.pending.head? = some (.word "for")) :
    ts.foldlM Body.step b = some { b with pending := b.pending ++ ts } := by
  induction ts generalizing b with
  | nil => simp
  | cons t ts ih =>
    obtain ⟨ht, hts⟩ := List.forall_mem_cons.1 hbrace
    rw [foldlM_cons_some (step_pending ht fun h => hend (h ▸ List.mem_cons_self)), ih hts, List.append_assoc,
      List.singleton_append]
    intro hmem
    rw [List.head?_append, hend (List.mem_cons_of_mem t hmem)]
    rfl

theorem reads_assign {ts : List Token} (hbrace : ∀ t ∈ ts, isBrace t = false) (hend : Token.mark ';' ∉ ts)
    (hhead : ts.head? ≠ some (.word "for")) {subscripts : List (String × Formula)} (h : Scans ts subscripts) :
    Reads (ts ++ [.mark ';']) [.assign ts subscripts] := by
  intro around before
  have hpending := foldlM_pending hbrace (b := ⟨around, before, []⟩) fun hmem => absurd hmem hend
  have hstep : Body.step ⟨around, before, ts⟩ (.mark ';') =
      some ⟨around, before ++ [.assign ts subscripts], []⟩ := by
    rw [Body.step, if_neg (by decide), if_neg (by decide), if_pos ⟨rfl, hhead⟩, Body.ended, readSubscripts_of_scans h]
    rfl
  rw [foldlM_append_some hpending, List.nil_append, foldlM_cons_some hstep]
  rfl

theorem reads_loop {head body : List Token} {counter : String} {first goOn : Formula} {code : List Code}
    (hbrace : ∀ t ∈ head, isBrace t = false)
    (hhead : readLoopHead (.word "for" :: head) = some (counter, first, goOn)) (hbody : Reads body code) :
    Reads (.word "for" :: head ++ .mark '\x7b' :: (body ++ [.mark '\x7d'])) [.loop counter first goOn code] := by
  intro around before
  have hword : Body.step ⟨around, before, []⟩ (.word "for") = some ⟨around, before, [.word "for"]⟩ := by
    simp [Body.step]
  have hpending := foldlM_pending hbrace (b := ⟨around, before, [.word "for"]⟩) fun _ => rfl
  have hopen : Body.step ⟨around, before, .word "for" :: head⟩ (.mark '\x7b') =
      some ⟨⟨before, counter, first, goOn⟩ :: around, [], []⟩ := by
    rw [Body.step, if_pos rfl, Body.opened, hhead]
    rfl
  have hclose : Body.step ⟨⟨before, counter, first, goOn⟩ :: around, code, []⟩ (.mark '\x7d') =
      some ⟨around, before ++ [.loop counter first goOn code], []⟩ := by
    simp [Body.step, Body.closed]
  rw [List.cons_append, foldlM_cons_some hword, foldlM_append_some hpending, List.singleton_append,
    foldlM_cons_some hopen, foldlM_append_some (hbody _ _), List.nil_append, foldlM_cons_some hclose]
  rfl

theorem readLoopHead_eq {v : String} {first goOn : List Token} {q q' : Formula} (hfirst : Token.mark ';' ∉ first)
    (hgoOn : Token.mark ';' ∉ goOn) (hq : Formula.read first = some q) (hq' : Formula.read goOn = some q') :
    readLoopHead (.word "for" :: .mark '(' :: .word "int64_t" :: .word v :: .mark '=' ::
      (first ++ .mark ';' :: (goOn ++ .mark ';' :: [.word v, .pair '+' '+', .mark ')']))) = some (v, q, q') := by
  have hfree {ts : List Token} (h : Token.mark ';' ∉ ts) : ∀ t ∈ ts, ¬ decide (t = .mark ';') := by
    intro t ht
    rw [decide_eq_true_eq]
    rintro rfl
    exact h ht
  have hsplit : List.splitOnP (fun t => decide (t = Token.mark ';'))
      (first ++ .mark ';' :: (goOn ++ .mark ';' :: [.word v, .pair '+' '+', .mark ')'])) =
      [first, goOn, [.word v, .pair '+' '+', .mark ')']] := by
    rw [List.splitOnP_append_cons_of_forall_mem (by simpa using hfree hfirst) _ (by simp),
      List.splitOnP_append_cons_of_forall_mem (by simpa using hfree hgoOn) _ (by simp)]
    rfl
  simp [readLoopHead, hsplit, hq, hq']

theorem readKernel_eq {head body : List Token} {code : List Code} (hhead : Token.mark '\x7b' ∉ head)
    (hbody : Reads body code) : readKernel (head ++ .mark '\x7b' :: (body ++ [.mark '\x7d'])) = some code := by
  have hdrop : ((head ++ Token.mark '\x7b' :: (body ++ [.mark '\x7d'])).dropWhile (· ≠ .mark '\x7b')).drop 1 =
      body ++ [.mark '\x7d'] := by
    rw [List.dropWhile_append_of_pos]
    · simp
    · intro t ht
      rw [decide_eq_true_eq]
      rintro rfl
      exact hhead ht
  have hend := hbody [] []
  rw [List.nil_append] at hend
  simp only [readKernel, hdrop, List.getLast?_concat, if_true, List.dropLast_concat, hend]
  rfl

end Bodies

end LoopNest.C
