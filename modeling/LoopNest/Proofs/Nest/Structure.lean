import LoopNest.Proofs.Nest.Saved
import LoopNest.Proofs.Transform.Forms
import LoopNest.Proofs.Tree.Text

namespace LoopNest

open Node

section Readable

variable {p : Program}

theorem readable_of_forms {names : List String} (hnames : ∀ a ∈ names, Name.isIdentifier a) {f : Affine}
    (hover : f.Over names) (hform : f.Normal ∧ (f.Printable ∨ f.terms = [])) : f.Readable :=
  ⟨hform.1, hform.2, fun a ha => hnames a (hover a ha)⟩

mutual

theorem readable_of_tidy (n : Node) {names : List String} (htidy : n.Tidy p names)
    (hnames : ∀ a ∈ names, Name.isIdentifier a) (hdims : ∀ a ∈ n.dims, Name.isIdentifier a)
    (hforms : ∀ f ∈ n.forms, f.Normal ∧ (f.Printable ∨ f.terms = [])) : n.Readable p := by
  cases n with
  | leaf l => exact ⟨htidy.computation, fun f hf => readable_of_forms hnames (htidy.inScope f hf) (hforms f hf)⟩
  | loop hd body =>
    obtain ⟨hlimits, hbody⟩ := List.forall_mem_append.1 hforms
    obtain ⟨hdim, hdims⟩ := List.forall_mem_cons.1 hdims
    refine ⟨⟨hdim, fun f hf => readable_of_forms hnames (htidy.1.inScope f hf) (hlimits f hf)⟩, ?_⟩
    exact readableAll_of_tidy body htidy.2 (List.forall_mem_cons.2 ⟨hdim, hnames⟩) hdims hbody

theorem readableAll_of_tidy (ns : List Node) {names : List String} (htidy : TidyAll p names ns)
    (hnames : ∀ a ∈ names, Name.isIdentifier a) (hdims : ∀ a ∈ dimsAll ns, Name.isIdentifier a)
    (hforms : ∀ f ∈ formsAll ns, f.Normal ∧ (f.Printable ∨ f.terms = [])) : ReadableAll p ns := by
  cases ns with
  | nil => trivial
  | cons n ns =>
    obtain ⟨hnode, hrest⟩ := List.forall_mem_append.1 hforms
    obtain ⟨hdims, hmore⟩ := List.forall_mem_append.1 hdims
    exact ⟨readable_of_tidy n htidy.1 hnames hdims hnode, readableAll_of_tidy ns htidy.2 hnames hmore hrest⟩

end

end Readable

theorem Header.printable_of_text {h : Header} {s : String} (hs : h.text = .ok s) :
    ∀ f ∈ h.limits, f.Printable ∨ f.terms = [] := by
  obtain ⟨lower, bound, hlower, hbound, -⟩ := text_eq_ok hs
  obtain ⟨upper, hupper, hclamp⟩ := boundText_eq_ok hbound
  intro f hf
  rcases mem_limits.1 hf with rfl | rfl | hf
  · exact Affine.printable_of_text hlower
  · exact Affine.printable_of_text hupper
  · rcases hclamp with ⟨hnone, -⟩ | ⟨c, clamp, hsome, hclamp, -⟩
    · cases hnone.symm.trans hf
    · cases hsome.symm.trans hf
      exact Affine.printable_of_text hclamp

theorem Leaf.printable_of_bindingsText {its : List String} {bs : List Affine} (hlength : bs.length = its.length)
    {ws : List String} (h : bindingsText its bs = .ok ws) : ∀ b ∈ bs, b.Printable ∨ b.terms = [] := by
  induction its generalizing bs ws with
  | nil => simp [List.length_eq_zero_iff.1 hlength]
  | cons it its ih =>
    obtain _ | ⟨b, bs⟩ := bs
    · exact nofun
    · obtain ⟨head, rest, hhead, hrest, -⟩ := bind₂_eq_ok.1 h
      refine List.forall_mem_cons.2 ⟨?_, ih (by simpa using hlength) hrest⟩
      unfold bindingText at hhead
      split at hhead
      · next hvar =>
        rw [hvar]
        have hone : (1 : Int) ≠ Word.minValue := by decide
        have hzero : (0 : Int) ≠ Word.minValue := by decide
        exact Or.inl ⟨hzero, List.forall_mem_singleton.2 hone⟩
      · obtain ⟨t, ht, -⟩ := bind_eq_ok.1 hhead
        exact Affine.printable_of_text ht

theorem Program.NamedByIdentifiers.iteratorNames {p : Program} (h : p.NamedByIdentifiers) :
    ∀ a ∈ p.iteratorNames, Name.isIdentifier a := by
  intro a ha
  obtain ⟨c, hc, ha⟩ := List.mem_flatMap.1 ha
  exact h.iterators c hc a ha

theorem Reshaped.dims_identifiers {p : Program} (hp : p.WellFormed) (hnames : p.NamedByIdentifiers)
    {roots : List Node} (h : Reshaped p roots) : ∀ a ∈ dimsAll roots, Name.isIdentifier a := by
  intro a ha
  obtain ⟨b, hb, hba⟩ := h.namedAfter hp a ha
  exact hba.isIdentifier (hnames.iteratorNames b hb)

section Text

variable {description : Description} {p : Program} (hp : description.build = .ok p) (hnames : p.NamedByIdentifiers)
include hp hnames

theorem Reshaped.readable {roots : List Node} (h : Reshaped p roots)
    (hprintable : ∀ f ∈ formsAll roots, f.Printable ∨ f.terms = []) : ReadableAll p roots := by
  have hwf := Description.wellFormed_of_build hp
  have hnormal := h.normal hwf (Description.normal_of_build hp)
  exact readableAll_of_tidy roots (h.sound hwf).tidy (by simp) (h.dims_identifiers hwf hnames)
    fun f hf => ⟨hnormal f hf, hprintable f hf⟩

/-- Nests have texts for their structures, which are the same just where the trees are the same. -/
theorem structureText_eq_iff {n m : Nest} (hn : Reshaped p n.roots) (hm : Reshaped p m.roots)
    (hnprint : ∀ f ∈ formsAll n.roots, f.Printable) (hmprint : ∀ f ∈ formsAll m.roots, f.Printable) :
    ∃ s s', n.structureText (Context.ofProgram p) = .ok s ∧ m.structureText (Context.ofProgram p) = .ok s' ∧
      (s = s' ↔ n.roots = m.roots) := by
  have hnread := hn.readable hp hnames fun f hf => Or.inl (hnprint f hf)
  have hmread := hm.readable hp hnames fun f hf => Or.inl (hmprint f hf)
  obtain ⟨s, hs⟩ := exists_textAll n.roots hnread 0
  obtain ⟨s', hs'⟩ := exists_textAll m.roots hmread 0
  refine ⟨s, s', hs, hs', ?_, fun hroots => ?_⟩
  · rintro rfl
    exact textAll_injective hnames (Description.nodup_names_of_build hp) hnread hmread hs hs'
  · rw [hroots] at hs
    exact Except.ok.inj (hs.symm.trans hs')

end Text

section Printed

variable {p : Program}

mutual

theorem printable_of_text (n : Node) {names : List String} (htidy : n.Tidy p names) {depth : Nat} {s : String}
    (h : n.text p depth = .ok s) : ∀ f ∈ n.forms, f.Printable ∨ f.terms = [] := by
  cases n with
  | leaf l =>
    obtain ⟨t, ht, -⟩ := bind_eq_ok.1 h
    obtain ⟨c, hc, hlength⟩ := htidy.computation
    obtain ⟨ws, hws, -⟩ := Leaf.text_eq_ok hc ht
    exact Leaf.printable_of_bindingsText hlength hws
  | loop hd body =>
    obtain ⟨t, rest, ht, hrest, -⟩ := bind₂_eq_ok.1 h
    exact List.forall_mem_append.2 ⟨Header.printable_of_text ht, printable_of_textAll body htidy.2 hrest⟩

theorem printable_of_textAll (ns : List Node) {names : List String} (htidy : TidyAll p names ns) {depth : Nat}
    {s : String} (h : Node.textAll p depth ns = .ok s) : ∀ f ∈ formsAll ns, f.Printable ∨ f.terms = [] := by
  cases ns with
  | nil => exact nofun
  | cons n ns =>
    obtain ⟨t, rest, ht, hrest, -⟩ := bind₂_eq_ok.1 h
    exact List.forall_mem_append.2 ⟨printable_of_text n htidy.1 ht, printable_of_textAll ns htidy.2 hrest⟩

end

end Printed

theorem roots_eq_of_structureText {description : Description} {p : Program} (hp : description.build = .ok p)
    (hnames : p.NamedByIdentifiers) {n m : Nest} (hn : Reshaped p n.roots) (hm : Reshaped p m.roots) {s : String}
    (h : n.structureText (Context.ofProgram p) = .ok s) (h' : m.structureText (Context.ofProgram p) = .ok s) :
    n.roots = m.roots := by
  have hwf := Description.wellFormed_of_build hp
  have hnread := hn.readable hp hnames (printable_of_textAll _ (hn.sound hwf).tidy h)
  have hmread := hm.readable hp hnames (printable_of_textAll _ (hm.sound hwf).tidy h')
  exact textAll_injective hnames (Description.nodup_names_of_build hp) hnread hmread h h'

theorem ProducerConsumer.identifiers : ProducerConsumer.program.NamedByIdentifiers :=
  ⟨by decide +kernel, by decide +kernel⟩

theorem ProducerConsumer.buffers_identifiers : ∀ b ∈ ProducerConsumer.program.buffers, Name.isIdentifier b.name :=
  List.all_eq_true.1 (by decide +kernel)

theorem structureText_eq_iff_producerConsumer : ∃ (n m : Nest) (s s' : String),
    n.roots = ProducerConsumer.separate ∧ m.roots = ProducerConsumer.fused {} ∧
    n.structureText (Context.ofProgram ProducerConsumer.program) = .ok s ∧
    m.structureText (Context.ofProgram ProducerConsumer.program) = .ok s' ∧ s ≠ s' := by
  obtain ⟨hseparate, hfused, -⟩ := ProducerConsumer.reachable
  have hseparate := Nest.reshaped_of_reachable hseparate
  have hfused := Nest.reshaped_of_reachable hfused
  obtain ⟨s, s', hs, hs', hiff⟩ := structureText_eq_iff ProducerConsumer.build_eq ProducerConsumer.identifiers
    hseparate hfused (by decide) (by decide)
  refine ⟨_, _, s, s', rfl, rfl, hs, hs', fun h => ?_⟩
  have hlengths := congrArg List.length (hiff.1 h)
  cases hlengths

end LoopNest
