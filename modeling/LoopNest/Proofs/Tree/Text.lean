import LoopNest.Proofs.Affine.Text
import LoopNest.Proofs.Tree.Points
import LoopNest.Tree.Printer

namespace LoopNest

open LoopNest.Affine (isTextChar text_append_inj)

structure Program.NamedByIdentifiers (p : Program) : Prop where
  computations : ∀ c ∈ p.computations, Name.isIdentifier c.name
  iterators : ∀ c ∈ p.computations, ∀ a ∈ c.iterators, Name.isIdentifier a

section Headers

def numberChars (opening : List Char) : Option Nat → List Char
  | none => []
  | some n => opening ++ ((toString n).toList ++ [')'])

theorem numberChars_inj {opening rest rest' : List Char} {o o' : Option Nat} (hrest : ¬ opening <+: rest)
    (hrest' : ¬ opening <+: rest') (h : numberChars opening o ++ rest = numberChars opening o' ++ rest') :
    o = o' ∧ rest = rest' := by
  cases o with
  | none =>
    cases o' with
    | none => exact ⟨rfl, h⟩
    | some n' =>
      rw [numberChars, numberChars, List.nil_append, List.append_assoc] at h
      exact absurd (h ▸ List.prefix_append _ _) hrest
  | some n =>
    cases o' with
    | none =>
      rw [numberChars, numberChars, List.nil_append, List.append_assoc] at h
      exact absurd (h ▸ List.prefix_append _ _) hrest'
    | some n' =>
      simp only [numberChars, List.append_assoc] at h
      have hdigits (n : Nat) : ∀ c ∈ (toString n).toList, Decimal.isDigit c := fun _ =>
        Decimal.isDigit_of_mem_toString
      obtain ⟨hn, hrest⟩ := append_inj_of_stop (hdigits n) (hdigits n') (by simp; decide) (by simp; decide)
        (List.append_cancel_left h)
      exact ⟨congrArg some (Name.repr_injective (String.toList_inj.1 hn)), (List.cons.inj hrest).2⟩

def Tags.chars (t : Tags) : List Char :=
  (if t.parallel then " parallel".toList else []) ++
    (numberChars " vectorize(".toList t.vectorize ++ numberChars " unroll(".toList t.unroll)

theorem not_prefix_of_second {l m r : List Char} {c d : Char} (hl : l[1]? = some c) (hm : m[1]? = some d)
    (hne : c ≠ d) : ¬ l <+: m ++ r := by
  rintro ⟨t, ht⟩
  have hsecond := congrArg (fun l => l[1]?) ht
  rw [List.getElem?_append_left (List.getElem?_eq_some_iff.1 hl).1,
    List.getElem?_append_left (List.getElem?_eq_some_iff.1 hm).1, hl, hm] at hsecond
  exact hne (Option.some.inj hsecond)

theorem Tags.chars_injective {t t' : Tags} (h : t.chars = t'.chars) : t = t' := by
  -- each mark begins with its own letter, so whether it is there can be read off
  have hunroll (o : Option Nat) : ¬ " vectorize(".toList <+: numberChars " unroll(".toList o := by
    cases o with
    | none => decide
    | some n => exact not_prefix_of_second (c := 'v') (d := 'u') rfl rfl (by decide)
  have hvectorize (o o' : Option Nat) :
      ¬ " parallel".toList <+: numberChars " vectorize(".toList o ++ numberChars " unroll(".toList o' := by
    cases o with
    | some n =>
      rw [numberChars, List.append_assoc]
      exact not_prefix_of_second (c := 'p') (d := 'v') rfl rfl (by decide)
    | none =>
      cases o' with
      | none => decide
      | some n => exact not_prefix_of_second (m := " unroll(".toList) (c := 'p') (d := 'u') rfl rfl (by decide)
  obtain ⟨parallel, vectorize, unroll⟩ := t
  obtain ⟨parallel', vectorize', unroll'⟩ := t'
  simp only [chars] at h
  obtain ⟨rfl, hrest⟩ : parallel = parallel' ∧ numberChars " vectorize(".toList vectorize ++
      numberChars " unroll(".toList unroll = numberChars " vectorize(".toList vectorize' ++
      numberChars " unroll(".toList unroll' := by
    cases parallel <;> cases parallel'
    · exact ⟨rfl, h⟩
    · exact absurd (List.prefix_append _ _) (h ▸ hvectorize vectorize unroll)
    · exact absurd (List.prefix_append _ _) (h ▸ hvectorize vectorize' unroll')
    · exact ⟨rfl, List.append_cancel_left h⟩
  obtain ⟨rfl, hlast⟩ := numberChars_inj (hunroll unroll) (hunroll unroll') hrest
  have hend : ¬ " unroll(".toList <+: [] := by decide
  rw [← List.append_nil (numberChars _ unroll), ← List.append_nil (numberChars _ unroll')] at hlast
  obtain ⟨rfl, -⟩ := numberChars_inj hend hend hlast
  rfl

namespace Header

structure Readable (h : Header) : Prop where
  dim : Name.isIdentifier h.dim
  limits : ∀ f ∈ h.limits, f.Readable

variable {h h' : Header}

theorem text_eq_ok {s : String} (hs : h.text = .ok s) : ∃ lower bound, h.lower.text = .ok lower ∧
    h.boundText = .ok bound ∧ s.toList = ['f', 'o', 'r', ' '] ++ (h.dim.toList ++ ([' ', 'i', 'n', ' ', '['] ++
      (lower.toList ++ ([',', ' '] ++ (bound.toList ++ ')' :: h.tags.chars))))) := by
  obtain ⟨lower, bound, hlower, hbound, rfl⟩ := bind₂_eq_ok.1 hs
  refine ⟨lower, bound, hlower, hbound, ?_⟩
  rcases h with ⟨dim, l, u, c, ⟨parallel, vectorize, unroll⟩⟩
  simp only [String.toList_append, List.append_assoc, Tags.chars]
  cases parallel <;> cases vectorize <;> cases unroll <;> simp [numberChars]

theorem boundText_eq_ok {s : String} (hs : h.boundText = .ok s) : ∃ upper, h.upper.text = .ok upper ∧
    ((h.clamp = none ∧ s = upper) ∨ ∃ c clamp, h.clamp = some c ∧ c.text = .ok clamp ∧
      s.toList = ['m', 'i', 'n', '('] ++ (upper.toList ++ ([',', ' '] ++ (clamp.toList ++ [')'])))) := by
  obtain ⟨upper, hupper, hs⟩ := bind_eq_ok.1 hs
  refine ⟨upper, hupper, ?_⟩
  split at hs
  · next hclamp =>
    cases hs
    exact Or.inl ⟨hclamp, rfl⟩
  · next c hclamp =>
    obtain ⟨clamp, ht, hs⟩ := bind_eq_ok.1 hs
    cases hs
    exact Or.inr ⟨c, clamp, hclamp, ht, by simp⟩

theorem exists_text (hr : h.Readable) : ∃ s, h.text = .ok s := by
  have hlimit {f : Affine} (hf : f ∈ h.limits) : ∃ s, f.text = .ok s := (hr.limits f hf).exists_text
  obtain ⟨lower, hlower⟩ := hlimit lower_mem_limits
  obtain ⟨upper, hupper⟩ := hlimit upper_mem_limits
  have hbound : ∃ s, h.boundText = .ok s := by
    rw [boundText, hupper, ok_bind]
    split
    · exact ⟨upper, rfl⟩
    · next c hclamp =>
      obtain ⟨clamp, hc⟩ := hlimit (clamp_mem_limits hclamp)
      rw [hc]
      exact ⟨_, rfl⟩
  obtain ⟨bound, hbound⟩ := hbound
  rw [text, hlower, ok_bind, hbound]
  exact ⟨_, rfl⟩

theorem not_clamped_of_text {f : Affine} (hf : f.Readable) {s : String} (hs : f.text = .ok s) (r t : List Char) :
    s.toList ++ ')' :: r ≠ ['m', 'i', 'n', '('] ++ t := by
  intro heq
  have hstop := append_inj_of_stop (m := ['m', 'i', 'n']) (s := '(' :: t) (Affine.isTextChar_text hf.atoms hs)
    (List.all_eq_true.1 rfl) (stop_cons rfl) (stop_cons rfl) heq
  cases (List.cons.inj hstop.2).1

theorem bound_inj (hr : h.Readable) (hr' : h'.Readable) {s s' : String} (hs : h.boundText = .ok s)
    (hs' : h'.boundText = .ok s') {r r' : List Char} (heq : s.toList ++ ')' :: r = s'.toList ++ ')' :: r') :
    h.upper = h'.upper ∧ h.clamp = h'.clamp ∧ r = r' := by
  have hlimit := hr.limits _ upper_mem_limits
  have hlimit' := hr'.limits _ upper_mem_limits
  obtain ⟨upper, hupper, ⟨hclamp, rfl⟩ | ⟨c, clamp, hclamp, hc, hs⟩⟩ := boundText_eq_ok hs
  · obtain ⟨upper', hupper', ⟨hclamp', rfl⟩ | ⟨c', clamp', hclamp', hc', hs'⟩⟩ := boundText_eq_ok hs'
    · obtain ⟨hsame, hrest⟩ := text_append_inj hlimit hlimit' hupper hupper' (stop_cons rfl) (stop_cons rfl) heq
      exact ⟨hsame, hclamp.trans hclamp'.symm, (List.cons.inj hrest).2⟩
    · rw [hs', List.append_assoc] at heq
      exact absurd heq (not_clamped_of_text hlimit hupper _ _)
  · obtain ⟨upper', hupper', ⟨hclamp', rfl⟩ | ⟨c', clamp', hclamp', hc', hs'⟩⟩ := boundText_eq_ok hs'
    · rw [hs, List.append_assoc] at heq
      exact absurd heq.symm (not_clamped_of_text hlimit' hupper' _ _)
    · simp only [hs, hs', List.append_assoc] at heq
      obtain ⟨hsame, hrest⟩ := text_append_inj (r := [',', ' '] ++ _) (s := [',', ' '] ++ _) hlimit hlimit' hupper
        hupper' (stop_cons rfl) (stop_cons rfl) (List.append_cancel_left heq)
      obtain ⟨hclamps, hend⟩ := text_append_inj (hr.limits _ (clamp_mem_limits hclamp))
        (hr'.limits _ (clamp_mem_limits hclamp')) hc hc' (stop_cons rfl) (stop_cons rfl)
        (List.append_cancel_left hrest)
      refine ⟨hsame, by rw [hclamp, hclamp', hclamps], ?_⟩
      simpa using hend

theorem text_injective (hr : h.Readable) (hr' : h'.Readable) {s : String} (hs : h.text = .ok s)
    (hs' : h'.text = .ok s) : h = h' := by
  obtain ⟨lower, bound, hlower, hbound, heq⟩ := text_eq_ok hs
  obtain ⟨lower', bound', hlower', hbound', heq'⟩ := text_eq_ok hs'
  rw [heq] at heq'
  obtain ⟨hdim, hlimits⟩ := append_inj_of_stop (r := [' ', 'i', 'n', ' ', '['] ++ _)
    (s := [' ', 'i', 'n', ' ', '['] ++ _) (Name.isTail_of_mem hr.dim) (Name.isTail_of_mem hr'.dim) (stop_cons rfl)
    (stop_cons rfl) (List.append_cancel_left heq')
  obtain ⟨hlowers, hrest⟩ := text_append_inj (r := [',', ' '] ++ _) (s := [',', ' '] ++ _)
    (hr.limits _ lower_mem_limits) (hr'.limits _ lower_mem_limits) hlower hlower' (stop_cons rfl) (stop_cons rfl)
    (List.append_cancel_left hlimits)
  obtain ⟨huppers, hclamps, htags⟩ := bound_inj hr hr' hbound hbound' (List.append_cancel_left hrest)
  have htags := Tags.chars_injective htags
  have hdim := String.toList_inj.1 hdim
  cases h
  cases h'
  simp_all

end Header

end Headers

section Breaks

def isUnbroken (c : Char) : Bool := c != '\n'

theorem isUnbroken_of {P : Char → Bool} (hP : P '\n' = false) {c : Char} (hc : P c) : isUnbroken c := by
  rw [isUnbroken, bne_iff_ne]
  rintro rfl
  rw [hP] at hc
  cases hc

theorem isUnbroken_numberChars {opening : List Char} (h : ∀ c ∈ opening, isUnbroken c) (o : Option Nat) :
    ∀ c ∈ numberChars opening o, isUnbroken c := by
  cases o with
  | none => exact List.forall_mem_nil _
  | some n =>
    refine List.forall_mem_append.2 ⟨h, List.forall_mem_append.2 ⟨fun c hc => ?_, List.all_eq_true.1 rfl⟩⟩
    exact isUnbroken_of rfl (Name.isTail_of_mem_toString hc)

theorem Tags.isUnbroken_chars (t : Tags) : ∀ c ∈ t.chars, isUnbroken c := by
  refine List.forall_mem_append.2 ⟨?_, List.forall_mem_append.2
    ⟨isUnbroken_numberChars (List.all_eq_true.1 rfl) _, isUnbroken_numberChars (List.all_eq_true.1 rfl) _⟩⟩
  split
  · exact List.all_eq_true.1 rfl
  · exact List.forall_mem_nil _

theorem isUnbroken_text {f : Affine} (hf : f.Readable) {s : String} (hs : f.text = .ok s) :
    ∀ c ∈ s.toList, isUnbroken c := fun c hc => isUnbroken_of rfl (Affine.isTextChar_text hf.atoms hs c hc)

theorem Header.isUnbroken_text {h : Header} (hr : h.Readable) {s : String} (hs : h.text = .ok s) :
    ∀ c ∈ s.toList, isUnbroken c := by
  have hlimit {f : Affine} (hf : f ∈ h.limits) {t : String} (ht : f.text = .ok t) : ∀ c ∈ t.toList, isUnbroken c :=
    LoopNest.isUnbroken_text (hr.limits f hf) ht
  obtain ⟨lower, bound, hlower, hbound, heq⟩ := text_eq_ok hs
  have hbounds : ∀ c ∈ bound.toList, isUnbroken c := by
    obtain ⟨upper, hupper, ⟨-, rfl⟩ | ⟨c, clamp, hclamp, hc, heq⟩⟩ := boundText_eq_ok hbound
    · exact hlimit upper_mem_limits hupper
    · simp only [heq, List.forall_mem_append]
      exact ⟨List.all_eq_true.1 rfl, hlimit upper_mem_limits hupper, List.all_eq_true.1 rfl,
        hlimit (clamp_mem_limits hclamp) hc, List.all_eq_true.1 rfl⟩
  simp only [heq, List.forall_mem_append]
  have hdim : ∀ c ∈ h.dim.toList, isUnbroken c := fun c hc => isUnbroken_of rfl (Name.isTail_of_mem hr.dim c hc)
  exact ⟨List.all_eq_true.1 rfl, hdim, List.all_eq_true.1 rfl, hlimit lower_mem_limits hlower,
    List.all_eq_true.1 rfl, hbounds, List.forall_mem_cons.2 ⟨rfl, h.tags.isUnbroken_chars⟩⟩

end Breaks

section Leaves

namespace Leaf

def isBindingChar (c : Char) : Bool := isTextChar c || c == '='

theorem bindingText_eq_ok {it : String} {b : Affine} {s : String} (h : bindingText it b = .ok s) :
    (b = .var it ∧ s.toList = it.toList) ∨ ∃ t, b.text = .ok t ∧ s.toList = it.toList ++ '=' :: t.toList := by
  rw [bindingText] at h
  split at h
  · next hvar =>
    cases h
    exact Or.inl ⟨hvar, rfl⟩
  · obtain ⟨t, ht, h⟩ := bind_eq_ok.1 h
    cases h
    exact Or.inr ⟨t, ht, by simp⟩

theorem isBindingChar_bindingText {it : String} (hit : Name.isIdentifier it) {b : Affine} (hb : b.Readable)
    {s : String} (h : bindingText it b = .ok s) : ∀ c ∈ s.toList, isBindingChar c := by
  have hname : ∀ c ∈ it.toList, isBindingChar c := fun c hc => by
    simp [isBindingChar, Affine.isTextChar_of_isTail (Name.isTail_of_mem hit c hc)]
  obtain ⟨-, hs⟩ | ⟨t, ht, hs⟩ := bindingText_eq_ok h
  · rwa [hs]
  · rw [hs]
    refine List.forall_mem_append.2 ⟨hname, List.forall_mem_cons.2 ⟨rfl, fun c hc => ?_⟩⟩
    simp [isBindingChar, Affine.isTextChar_text hb.atoms ht c hc]

theorem bindingText_injective {it : String} {b b' : Affine} (hb : b.Readable) (hb' : b'.Readable) {s : String}
    (h : bindingText it b = .ok s) (h' : bindingText it b' = .ok s) : b = b' := by
  have hnamed {t : List Char} : it.toList ≠ it.toList ++ '=' :: t := by simp
  obtain ⟨hvar, hs⟩ | ⟨t, ht, hs⟩ := bindingText_eq_ok h
  · obtain ⟨hvar', -⟩ | ⟨t', -, hs'⟩ := bindingText_eq_ok h'
    · exact hvar.trans hvar'.symm
    · exact absurd (hs.symm.trans hs') hnamed
  · obtain ⟨-, hs'⟩ | ⟨t', ht', hs'⟩ := bindingText_eq_ok h'
    · exact absurd (hs'.symm.trans hs) hnamed
    · have htext := (List.cons.inj (List.append_cancel_left (hs.symm.trans hs'))).2
      obtain rfl := String.toList_inj.1 htext
      exact Affine.text_injective hb hb' ht ht'

theorem exists_bindingsText (its : List String) {bs : List Affine} (hbs : ∀ b ∈ bs, b.Readable) :
    ∃ ws, bindingsText its bs = .ok ws := by
  induction its generalizing bs with
  | nil => exact ⟨[], rfl⟩
  | cons it its ih =>
    cases bs with
    | nil => exact ⟨[], rfl⟩
    | cons b bs =>
      obtain ⟨hb, hbs⟩ := List.forall_mem_cons.1 hbs
      have hhead : ∃ s, bindingText it b = .ok s := by
        rw [bindingText]
        split
        · exact ⟨it, rfl⟩
        · obtain ⟨t, ht⟩ := hb.exists_text
          exact ⟨_, bind_eq_ok.2 ⟨t, ht, rfl⟩⟩
      obtain ⟨head, hhead⟩ := hhead
      obtain ⟨rest, hrest⟩ := ih hbs
      exact ⟨head :: rest, bind₂_eq_ok.2 ⟨head, rest, hhead, hrest, rfl⟩⟩

theorem length_bindingsText {its : List String} {bs : List Affine} {ws : List String}
    (h : bindingsText its bs = .ok ws) (hlength : bs.length = its.length) : ws.length = its.length := by
  induction its generalizing bs ws with
  | nil =>
    cases h
    rfl
  | cons it its ih =>
    obtain ⟨b, bs, rfl⟩ := List.exists_cons_of_length_eq_add_one hlength
    obtain ⟨head, rest, -, hrest, rfl⟩ := bind₂_eq_ok.1 h
    rw [List.length_cons, List.length_cons, ih hrest (by simpa using hlength)]

theorem isBindingChar_bindingsText {its : List String} (hits : ∀ it ∈ its, Name.isIdentifier it) {bs : List Affine}
    (hbs : ∀ b ∈ bs, b.Readable) {ws : List String} (h : bindingsText its bs = .ok ws) :
    ∀ w ∈ ws, ∀ c ∈ w.toList, isBindingChar c := by
  induction its generalizing bs ws with
  | nil =>
    cases h
    exact List.forall_mem_nil _
  | cons it its ih =>
    cases bs with
    | nil =>
      cases h
      exact List.forall_mem_nil _
    | cons b bs =>
      obtain ⟨head, rest, hhead, hrest, rfl⟩ := bind₂_eq_ok.1 h
      obtain ⟨hit, hits⟩ := List.forall_mem_cons.1 hits
      obtain ⟨hb, hbs⟩ := List.forall_mem_cons.1 hbs
      exact List.forall_mem_cons.2 ⟨isBindingChar_bindingText hit hb hhead, ih hits hbs hrest⟩

theorem bindingsText_injective {its : List String} {bs bs' : List Affine} (hbs : ∀ b ∈ bs, b.Readable)
    (hbs' : ∀ b ∈ bs', b.Readable) (hlength : bs.length = its.length) (hlength' : bs'.length = its.length)
    {ws : List String} (h : bindingsText its bs = .ok ws) (h' : bindingsText its bs' = .ok ws) : bs = bs' := by
  induction its generalizing bs bs' ws with
  | nil => rw [List.length_eq_zero_iff.1 hlength, List.length_eq_zero_iff.1 hlength']
  | cons it its ih =>
    obtain ⟨b, bs, rfl⟩ := List.exists_cons_of_length_eq_add_one hlength
    obtain ⟨b', bs', rfl⟩ := List.exists_cons_of_length_eq_add_one hlength'
    obtain ⟨hb, hrest⟩ := List.forall_mem_cons.1 hbs
    obtain ⟨hb', hrest'⟩ := List.forall_mem_cons.1 hbs'
    obtain ⟨head, rest, hhead, htail, rfl⟩ := bind₂_eq_ok.1 h
    obtain ⟨head', rest', hhead', htail', heq⟩ := bind₂_eq_ok.1 h'
    cases heq
    rw [bindingText_injective hb hb' hhead hhead',
      ih hrest hrest' (by simpa using hlength) (by simpa using hlength') htail htail']

structure Readable (p : Program) (l : Leaf) : Prop where
  computation : ∃ c, p.computations[l.computation]? = some c ∧ l.bindings.length = c.iterators.length
  bindings : ∀ f ∈ l.bindings, f.Readable

theorem exists_text {p : Program} {l : Leaf} (hl : l.Readable p) : ∃ s, l.text p = .ok s := by
  obtain ⟨ws, hws⟩ := exists_bindingsText _ hl.bindings
  exact ⟨_, bind_eq_ok.2 ⟨ws, hws, rfl⟩⟩

theorem text_eq_ok {p : Program} {l : Leaf} {c : Computation} (hc : p.computations[l.computation]? = some c)
    {s : String} (h : l.text p = .ok s) : ∃ ws, bindingsText c.iterators l.bindings = .ok ws ∧
      s.toList = c.name.toList ++ '(' :: ([',', ' '].intercalate (ws.map String.toList) ++ [')']) := by
  obtain ⟨ws, hws, h⟩ := bind_eq_ok.1 h
  cases h
  rw [hc] at hws
  refine ⟨ws, hws, ?_⟩
  rw [Program.computationName, hc]
  simp [String.toList_intercalate]

theorem text_injective {p : Program} (hp : p.NamedByIdentifiers)
    (hdistinct : (p.computations.map Computation.name).Nodup) {l l' : Leaf} (hl : l.Readable p)
    (hl' : l'.Readable p) {s : String} (h : l.text p = .ok s) (h' : l'.text p = .ok s) : l = l' := by
  obtain ⟨c, hc, hlength⟩ := hl.computation
  obtain ⟨c', hc', hlength'⟩ := hl'.computation
  obtain ⟨ws, hws, heq⟩ := text_eq_ok hc h
  obtain ⟨ws', hws', heq'⟩ := text_eq_ok hc' h'
  have hmem := List.mem_of_getElem? hc
  have hmem' := List.mem_of_getElem? hc'
  obtain ⟨hname, hrest⟩ := append_inj_of_stop (Name.isTail_of_mem (hp.computations c hmem))
    (Name.isTail_of_mem (hp.computations c' hmem')) (stop_cons rfl) (stop_cons rfl) (heq.symm.trans heq')
  -- names of computations end at the parenthesis and are distinct
  have hindex : l.computation = l'.computation := by
    have hlt : l.computation < (p.computations.map Computation.name).length := by
      rw [List.length_map]
      exact (List.getElem?_eq_some_iff.1 hc).1
    refine (List.getElem?_inj hlt hdistinct).1 ?_
    rw [List.getElem?_map, List.getElem?_map, hc, hc', Option.map_some, Option.map_some, String.toList_inj.1 hname]
  rw [← hindex, hc] at hc'
  obtain rfl := Option.some.inj hc'
  have hits := hp.iterators c hmem
  have hchars {bs : List Affine} {vs : List String} (hbs : ∀ b ∈ bs, b.Readable)
      (hvs : bindingsText c.iterators bs = .ok vs) : ∀ v ∈ vs.map String.toList, ∀ x ∈ v, isBindingChar x :=
    List.forall_mem_map.2 (isBindingChar_bindingsText hits hbs hvs)
  have hsame := intercalate_inj (by simp) (stop_cons rfl) (hchars hl.bindings hws) (hchars hl'.bindings hws')
    (by simp [length_bindingsText hws hlength, length_bindingsText hws' hlength'])
    (List.append_cancel_right (List.cons.inj hrest).2)
  obtain rfl := List.map_injective_iff.2 (fun _ _ => String.toList_inj.1) hsame
  have hbindings := bindingsText_injective hl.bindings hl'.bindings hlength hlength' hws hws'
  cases l
  cases l'
  simp_all

end Leaf

end Leaves

section Trees

namespace Node

variable {p : Program}

mutual

def Readable (p : Program) : Node → Prop
  | leaf l => l.Readable p
  | loop h body => h.Readable ∧ ReadableAll p body

def ReadableAll (p : Program) : List Node → Prop
  | [] => True
  | n :: ns => n.Readable p ∧ ReadableAll p ns

end

mutual

theorem exists_text (n : Node) (hn : n.Readable p) (depth : Nat) : ∃ s, n.text p depth = .ok s := by
  cases n with
  | leaf l =>
    obtain ⟨t, ht⟩ := Leaf.exists_text hn
    exact ⟨_, bind_eq_ok.2 ⟨t, ht, rfl⟩⟩
  | loop hd body =>
    obtain ⟨t, ht⟩ := Header.exists_text hn.1
    obtain ⟨rest, hrest⟩ := exists_textAll body hn.2 (depth + 1)
    exact ⟨_, bind₂_eq_ok.2 ⟨t, rest, ht, hrest, rfl⟩⟩

theorem exists_textAll (ns : List Node) (hns : ReadableAll p ns) (depth : Nat) :
    ∃ s, textAll p depth ns = .ok s := by
  cases ns with
  | nil => exact ⟨"", rfl⟩
  | cons n ns =>
    obtain ⟨t, ht⟩ := exists_text n hns.1 depth
    obtain ⟨rest, hrest⟩ := exists_textAll ns hns.2 depth
    exact ⟨_, bind₂_eq_ok.2 ⟨t, rest, ht, hrest, rfl⟩⟩

end

def children : Node → List Node
  | leaf _ => []
  | loop _ body => body

theorem readableAll_children {n : Node} (h : n.Readable p) : ReadableAll p n.children := by
  cases n with
  | leaf l => trivial
  | loop hd body => exact h.2

theorem text_eq_ok {n : Node} {depth : Nat} {s : String} (h : n.text p depth = .ok s) : ∃ label rest,
    n.headerText p = .ok label ∧ textAll p (depth + 1) n.children = .ok rest ∧
      s.toList = List.replicate (2 * depth) ' ' ++ (label.toList ++ '\n' :: rest.toList) := by
  cases n with
  | leaf l =>
    obtain ⟨label, hlabel, h⟩ := bind_eq_ok.1 h
    cases h
    exact ⟨label, "", hlabel, rfl, by simp [Text.indentation]⟩
  | loop hd body =>
    obtain ⟨label, rest, hlabel, hrest, rfl⟩ := bind₂_eq_ok.1 h
    exact ⟨label, rest, hlabel, hrest, by simp [Text.indentation]⟩

theorem label_eq_cons (hp : p.NamedByIdentifiers) {n : Node} (hn : n.Readable p) {label : String}
    (h : n.headerText p = .ok label) : ∃ c r, label.toList = c :: r ∧ Name.isLetter c := by
  cases n with
  | leaf l =>
    obtain ⟨c, hc, -⟩ := hn.computation
    obtain ⟨ws, -, heq⟩ := Leaf.text_eq_ok hc h
    obtain ⟨d, r, hname, hd, -⟩ := Name.isIdentifier_iff.1 (hp.computations c (List.mem_of_getElem? hc))
    exact ⟨d, _, by rw [heq, hname]; rfl, hd⟩
  | loop hd body =>
    obtain ⟨lower, bound, -, -, heq⟩ := Header.text_eq_ok h
    exact ⟨'f', _, heq, rfl⟩

theorem isUnbroken_label (hp : p.NamedByIdentifiers) {n : Node} (hn : n.Readable p) {label : String}
    (h : n.headerText p = .ok label) : ∀ c ∈ label.toList, isUnbroken c := by
  cases n with
  | leaf l =>
    obtain ⟨c, hc, -⟩ := hn.computation
    have hmem := List.mem_of_getElem? hc
    obtain ⟨ws, hws, heq⟩ := Leaf.text_eq_ok hc h
    have hbindings := Leaf.isBindingChar_bindingsText (hp.iterators c hmem) hn.bindings hws
    rw [heq]
    have hname := Name.isTail_of_mem (hp.computations c hmem)
    refine List.forall_mem_append.2 ⟨fun x hx => isUnbroken_of rfl (hname x hx),
      List.forall_mem_cons.2 ⟨rfl, List.forall_mem_append.2 ⟨fun x hx => ?_, List.all_eq_true.1 rfl⟩⟩⟩
    rcases mem_of_mem_intercalate hx with hx | ⟨w, hw, hx⟩
    · have hseparator : ∀ x ∈ [',', ' '], isUnbroken x := List.all_eq_true.1 rfl
      exact hseparator x hx
    · obtain ⟨v, hv, rfl⟩ := List.mem_map.1 hw
      exact isUnbroken_of rfl (hbindings v hv x hx)
  | loop hd body => exact Header.isUnbroken_text hn.1 h

theorem label_injective (hp : p.NamedByIdentifiers) (hdistinct : (p.computations.map Computation.name).Nodup)
    {n n' : Node} (hn : n.Readable p) (hn' : n'.Readable p) {label : String} (h : n.headerText p = .ok label)
    (h' : n'.headerText p = .ok label) (hchildren : n.children = n'.children) : n = n' := by
  have hkinds {l : Leaf} {hd : Header} (hl : l.Readable p) (hlabel : l.text p = .ok label) :
      hd.text ≠ .ok label := by
    intro hloop
    obtain ⟨c, hc, -⟩ := hl.computation
    obtain ⟨ws, -, heq⟩ := Leaf.text_eq_ok hc hlabel
    obtain ⟨lower, bound, -, -, heq'⟩ := Header.text_eq_ok hloop
    have hname := Name.isTail_of_mem (hp.computations c (List.mem_of_getElem? hc))
    obtain ⟨-, hstop⟩ := append_inj_of_stop (m := ['f', 'o', 'r']) (s := ' ' :: _) hname (List.all_eq_true.1 rfl)
      (stop_cons rfl) (stop_cons rfl) (heq.symm.trans heq')
    cases (List.cons.inj hstop).1
  cases n with
  | leaf l =>
    cases n' with
    | leaf l' => rw [Leaf.text_injective hp hdistinct hn hn' h h']
    | loop hd' body' => exact absurd h' (hkinds hn h)
  | loop hd body =>
    cases n' with
    | leaf l' => exact absurd h (hkinds hn' h')
    | loop hd' body' =>
      obtain rfl : body = body' := hchildren
      rw [Header.text_injective hn.1 hn'.1 h h']

def Shallow (depth : Nat) (r : List Char) : Prop :=
  r = [] ∨ ∃ d < depth, ∃ c t, r = List.replicate (2 * d) ' ' ++ c :: t ∧ Name.isLetter c

theorem Shallow.mono {depth depth' : Nat} {r : List Char} (h : Shallow depth r) (hle : depth ≤ depth') :
    Shallow depth' r := by
  obtain rfl | ⟨d, hd, h⟩ := h
  · exact .inl rfl
  · exact .inr ⟨d, by omega, h⟩

theorem indentation_inj {d d' : Nat} {c c' : Char} {t t' : List Char} (hc : Name.isLetter c) (hc' : Name.isLetter c')
    (h : List.replicate (2 * d) ' ' ++ c :: t = List.replicate (2 * d') ' ' ++ c' :: t') :
    d = d' ∧ c :: t = c' :: t' := by
  have hspaces (k : Nat) : ∀ x ∈ List.replicate (2 * k) ' ', (x == ' ') = true := by simp
  have hstop {x : Char} (hx : Name.isLetter x) : (x == ' ') = false := by
    simpa using Name.ne_of_isTail (Name.isTail_of_isLetter hx) (by decide)
  obtain ⟨hsame, hrest⟩ := append_inj_of_stop (hspaces d) (hspaces d') (stop_cons (hstop hc))
    (stop_cons (hstop hc')) h
  have hlength := congrArg List.length hsame
  rw [List.length_replicate, List.length_replicate] at hlength
  exact ⟨by omega, hrest⟩

theorem text_opens (hp : p.NamedByIdentifiers) {n : Node} (hn : n.Readable p) {depth : Nat} {s : String}
    (h : n.text p depth = .ok s) :
    ∃ c t, s.toList = List.replicate (2 * depth) ' ' ++ c :: t ∧ Name.isLetter c := by
  obtain ⟨label, rest, hlabel, -, hs⟩ := text_eq_ok h
  obtain ⟨c, r, hchars, hc⟩ := label_eq_cons hp hn hlabel
  exact ⟨c, _, by rw [hs, hchars, List.cons_append], hc⟩

theorem shallow_of_textAll (hp : p.NamedByIdentifiers) {ns : List Node} (hns : ReadableAll p ns) {depth : Nat}
    {s : String} (h : textAll p depth ns = .ok s) {r : List Char} (hr : Shallow (depth + 1) r) :
    Shallow (depth + 1) (s.toList ++ r) := by
  cases ns with
  | nil =>
    cases h
    exact hr
  | cons n ns =>
    obtain ⟨t, rest, ht, -, rfl⟩ := bind₂_eq_ok.1 h
    obtain ⟨c, u, hu, hc⟩ := text_opens hp hns.1 ht
    exact .inr ⟨depth, by omega, c, u ++ (rest.toList ++ r), by simp [hu], hc⟩

theorem not_shallow_of_text (hp : p.NamedByIdentifiers) {n : Node} (hn : n.Readable p) {depth : Nat} {s : String}
    (h : n.text p depth = .ok s) (t : List Char) : ¬ Shallow depth (s.toList ++ t) := by
  obtain ⟨c, u, hu, hc⟩ := text_opens hp hn h
  rintro (hnil | ⟨d, hd, c', t', heq, hc'⟩)
  · simp [hu] at hnil
  · rw [hu, List.append_assoc, List.cons_append] at heq
    have hdepth := (indentation_inj hc hc' heq).1
    omega

theorem eq_nil_of_shallow (hp : p.NamedByIdentifiers) {ns : List Node} (hns : ReadableAll p ns) {depth : Nat}
    {s : String} (h : textAll p depth ns = .ok s) {r : List Char} (hr : Shallow depth (s.toList ++ r)) :
    ns = [] ∧ s = "" := by
  cases ns with
  | nil =>
    cases h
    exact ⟨rfl, rfl⟩
  | cons n ns =>
    obtain ⟨t, rest, ht, -, rfl⟩ := bind₂_eq_ok.1 h
    rw [String.toList_append, List.append_assoc] at hr
    exact absurd hr (not_shallow_of_text hp hns.1 ht _)

mutual

theorem text_append_inj (hp : p.NamedByIdentifiers) (hdistinct : (p.computations.map Computation.name).Nodup)
    (n : Node) {n' : Node} (hn : n.Readable p) (hn' : n'.Readable p) {depth : Nat} {s s' : String}
    (h : n.text p depth = .ok s) (h' : n'.text p depth = .ok s') {r r' : List Char} (hr : Shallow (depth + 1) r)
    (hr' : Shallow (depth + 1) r') (heq : s.toList ++ r = s'.toList ++ r') : n = n' ∧ r = r' := by
  obtain ⟨label, rest, hlabel, hrest, hs⟩ := text_eq_ok h
  obtain ⟨label', rest', hlabel', hrest', hs'⟩ := text_eq_ok h'
  simp only [hs, hs', List.append_assoc, List.cons_append] at heq
  obtain ⟨hsame, hbelow⟩ := append_inj_of_stop (isUnbroken_label hp hn hlabel) (isUnbroken_label hp hn' hlabel')
    (stop_cons rfl) (stop_cons rfl) (List.append_cancel_left heq)
  obtain rfl := String.toList_inj.1 hsame
  have hbelow := (List.cons.inj hbelow).2
  have hbody' := readableAll_children hn'
  obtain ⟨hchildren, hr⟩ : n.children = n'.children ∧ r = r' := by
    cases n with
    | leaf l =>
      cases hrest
      have hbelow : r = rest'.toList ++ r' := hbelow
      obtain ⟨hnil, rfl⟩ := eq_nil_of_shallow hp hbody' hrest' (hbelow ▸ hr)
      exact ⟨hnil.symm, hbelow⟩
    | loop hd body => exact textAll_append_inj hp hdistinct body hn.2 hbody' hrest hrest' hr hr' hbelow
  exact ⟨label_injective hp hdistinct hn hn' hlabel hlabel' hchildren, hr⟩

theorem textAll_append_inj (hp : p.NamedByIdentifiers) (hdistinct : (p.computations.map Computation.name).Nodup)
    (ns : List Node) {ns' : List Node} (hns : ReadableAll p ns) (hns' : ReadableAll p ns') {depth : Nat}
    {s s' : String} (h : textAll p depth ns = .ok s) (h' : textAll p depth ns' = .ok s') {r r' : List Char}
    (hr : Shallow depth r) (hr' : Shallow depth r') (heq : s.toList ++ r = s'.toList ++ r') :
    ns = ns' ∧ r = r' := by
  cases ns with
  | nil =>
    cases h
    have heq : r = s'.toList ++ r' := heq
    obtain ⟨rfl, rfl⟩ := eq_nil_of_shallow hp hns' h' (heq ▸ hr)
    exact ⟨rfl, heq⟩
  | cons n ns =>
    cases ns' with
    | nil =>
      cases h'
      have heq : s.toList ++ r = r' := heq
      exact absurd (eq_nil_of_shallow hp hns h (heq ▸ hr')).1 (List.cons_ne_nil n ns)
    | cons n' ns' =>
      obtain ⟨t, rest, ht, hrest, rfl⟩ := bind₂_eq_ok.1 h
      obtain ⟨t', rest', ht', hrest', rfl⟩ := bind₂_eq_ok.1 h'
      rw [String.toList_append, String.toList_append, List.append_assoc, List.append_assoc] at heq
      obtain ⟨rfl, hmore⟩ := text_append_inj hp hdistinct n hns.1 hns'.1 ht ht'
        (shallow_of_textAll hp hns.2 hrest (hr.mono (Nat.le_succ depth)))
        (shallow_of_textAll hp hns'.2 hrest' (hr'.mono (Nat.le_succ depth))) heq
      obtain ⟨rfl, hsame⟩ := textAll_append_inj hp hdistinct ns hns.2 hns'.2 hrest hrest' hr hr' hmore
      exact ⟨rfl, hsame⟩

end

theorem textAll_injective (hp : p.NamedByIdentifiers) (hdistinct : (p.computations.map Computation.name).Nodup)
    {ns ns' : List Node} (hns : ReadableAll p ns) (hns' : ReadableAll p ns') {depth : Nat}
    {s : String} (h : textAll p depth ns = .ok s) (h' : textAll p depth ns' = .ok s) : ns = ns' :=
  (textAll_append_inj hp hdistinct ns hns hns' h h' (.inl rfl) (.inl rfl) rfl).1

end Node

end Trees

end LoopNest
