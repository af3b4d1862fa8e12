import LoopNest.Proofs.Affine.Renaming
import LoopNest.Proofs.Tree.Nest

namespace LoopNest

theorem Header.Bound.exists_of_mem {m : String → Affine} {h h' : Header} (hb : h.Bound m h') {g : Affine}
    (hg : g ∈ h'.limits) : ∃ f ∈ h.limits, f.bindVars m = .ok g := by
  rcases mem_limits.1 hg with rfl | rfl | hclamp
  · exact ⟨h.lower, lower_mem_limits, hb.lower⟩
  · exact ⟨h.upper, upper_mem_limits, hb.upper⟩
  · rcases hb.clamp with ⟨-, hnone⟩ | ⟨c, c', hc, hcc, hsome⟩
    · cases hnone.symm.trans hclamp
    · cases hsome.symm.trans hclamp
      exact ⟨c, clamp_mem_limits hc, hcc⟩

namespace Node

mutual

def forms : Node → List Affine
  | leaf l => l.bindings
  | loop h body => h.limits ++ formsAll body

def formsAll : List Node → List Affine
  | [] => []
  | n :: ns => n.forms ++ formsAll ns

end

theorem formsAll_append (ms ns : List Node) : formsAll (ms ++ ns) = formsAll ms ++ formsAll ns := by
  induction ms with
  | nil => rfl
  | cons m ms ih => rw [List.cons_append, formsAll, formsAll, ih, List.append_assoc]

theorem formsAll_nest (hs : List Header) (body : List Node) :
    formsAll (nest hs body) = hs.flatMap Header.limits ++ formsAll body := by
  induction hs with
  | nil => rfl
  | cons h hs ih => simp [nest, formsAll, forms, ih]

section Context

variable {n n' : Node} {ns ns' : List Node} {path : Path} {hs : List Header}

theorem Occurs.forms_subset (h : Occurs n ns path hs) : n.forms ⊆ formsAll ns := by
  induction h with
  | here pre post =>
    rw [formsAll_append, formsAll]
    exact List.Subset.trans (List.subset_append_left _ _) (List.subset_append_right _ _)
  | under hd pre post hb ih =>
    rw [formsAll_append, formsAll, forms]
    intro f hf
    simp [ih hf]

theorem Replaces.forms_subset (h : Replaces n n' ns ns' hs) : formsAll ns' ⊆ n'.forms ++ formsAll ns := by
  induction h with
  | here pre post =>
    intro f hf
    simp only [formsAll_append, formsAll, List.mem_append] at hf ⊢
    tauto
  | under hd pre post hb ih =>
    intro f hf
    have hbody := @ih f
    simp only [formsAll_append, formsAll, forms, List.mem_append] at hf hbody ⊢
    tauto

theorem Removes.forms_subset (h : Removes n ns ns' hs) : formsAll ns' ⊆ formsAll ns := by
  induction h with
  | here pre post =>
    intro f hf
    simp only [formsAll_append, formsAll, List.mem_append] at hf ⊢
    tauto
  | under hd pre post hb ih =>
    intro f hf
    have hbody := @ih f
    simp only [formsAll_append, formsAll, forms, List.mem_append] at hf hbody ⊢
    tauto
  | prune hd pre post hb ih =>
    intro f hf
    simp only [formsAll_append, formsAll, List.mem_append] at hf ⊢
    tauto

theorem Inserts.forms_subset (h : Inserts n ns ns' hs) : formsAll ns' ⊆ n.forms ++ formsAll ns := by
  induction h with
  | here pre post =>
    intro f hf
    simp only [formsAll_append, formsAll, List.mem_append] at hf ⊢
    tauto
  | under hd pre post hb ih =>
    intro f hf
    have hbody := @ih f
    simp only [formsAll_append, formsAll, forms, List.mem_append] at hf hbody ⊢
    tauto

end Context

section Substitution

variable {m : String → Affine}

mutual

theorem forms_substitute (n : Node) {n' : Node} (h : n.substitute m = .ok n') :
    ∀ g ∈ n'.forms, ∃ f ∈ n.forms, f.bindVars m = .ok g := by
  cases n with
  | leaf l =>
    obtain ⟨bindings, hb, rfl⟩ := substitute_leaf_eq_ok.1 h
    exact fun g hg => (traverses_substituteForms m).exists_of_mem hb hg
  | loop hd body =>
    obtain ⟨hd', body', hbound, -, -, hb, rfl⟩ := substitute_loop_eq_ok h
    intro g hg
    rcases List.mem_append.1 hg with hg | hg
    · obtain ⟨f, hf, hfg⟩ := hbound.exists_of_mem hg
      exact ⟨f, List.mem_append_left _ hf, hfg⟩
    · obtain ⟨f, hf, hfg⟩ := formsAll_substituteAll body hb g hg
      exact ⟨f, List.mem_append_right _ hf, hfg⟩

theorem formsAll_substituteAll (ns : List Node) {ns' : List Node} (h : substituteAll m ns = .ok ns') :
    ∀ g ∈ formsAll ns', ∃ f ∈ formsAll ns, f.bindVars m = .ok g := by
  cases ns with
  | nil =>
    cases h
    exact fun g hg => absurd hg List.not_mem_nil
  | cons n ns =>
    obtain ⟨n', rest, hn, hr, rfl⟩ := substituteAll_cons_eq_ok h
    intro g hg
    rcases List.mem_append.1 hg with hg | hg
    · obtain ⟨f, hf, hfg⟩ := forms_substitute n hn g hg
      exact ⟨f, List.mem_append_left _ hf, hfg⟩
    · obtain ⟨f, hf, hfg⟩ := formsAll_substituteAll ns hr g hg
      exact ⟨f, List.mem_append_right _ hf, hfg⟩

end

end Substitution

end Node

end LoopNest
