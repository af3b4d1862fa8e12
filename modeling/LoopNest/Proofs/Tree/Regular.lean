import LoopNest.Proofs.Tree.Lookup
import LoopNest.Proofs.Tree.Nest

namespace LoopNest

structure Header.Fits (h : Header) (body : List Node) : Prop where
  innermost : h.tags.vectorize.isSome → Node.onlyLeaves body = true
  alone : h.tags.vectorize.isSome → h.tags.parallel = false ∧ h.tags.unroll = none
  width : ∀ w, h.tags.vectorize = some w → ∀ env, h.upper.value env - h.lower.value env = w
  factor : ∀ w, h.tags.unroll = some w → ∀ env, h.upper.value env - h.lower.value env = w

theorem Header.fits_of_untagged {h : Header} {body : List Node} (htags : h.tags = {}) : h.Fits body := by
  constructor <;> simp [htags]

theorem Header.Fits.of_body {h : Header} {body body' : List Node} (hf : h.Fits body)
    (hbody : h.tags.vectorize.isSome → Node.onlyLeaves body = true → Node.onlyLeaves body' = true) :
    h.Fits body' where
  innermost hv := hbody hv (hf.innermost hv)
  alone := hf.alone
  width := hf.width
  factor := hf.factor

theorem Header.Bound.fits {m : String → Affine} {h h' : Header} (hb : h.Bound m h') (htags : h'.tags = h.tags)
    {body body' : List Node}
    (hbody : Node.onlyLeaves body' = Node.onlyLeaves body) (hf : h.Fits body) : h'.Fits body' := by
  have hextent (env : Valuation) : h'.upper.value env - h'.lower.value env =
      h.upper.value (fun a => (m a).value env) - h.lower.value fun a => (m a).value env := by
    rw [Affine.value_bindVars env hb.upper, Affine.value_bindVars env hb.lower]
  refine ⟨?_, ?_, fun w hw env => ?_, fun w hw env => ?_⟩
  · rw [htags, hbody]
    exact hf.innermost
  · rw [htags]
    exact hf.alone
  · rw [hextent]
    exact hf.width w (htags ▸ hw) _
  · rw [hextent]
    exact hf.factor w (htags ▸ hw) _

namespace Node

mutual

def Regular (inside : Bool) : Node → Prop
  | leaf _ => True
  | loop h body => body ≠ [] ∧ h.Fits body ∧ (inside = true → h.tags.parallel = false) ∧
      RegularAll (inside || h.tags.parallel) body

def RegularAll (inside : Bool) : List Node → Prop
  | [] => True
  | n :: ns => n.Regular inside ∧ RegularAll inside ns

end

def parallelAbove (inside : Bool) : List Header → Bool
  | [] => inside
  | h :: hs => parallelAbove (inside || h.tags.parallel) hs

theorem parallelAbove_append (inside : Bool) (hs ks : List Header) :
    parallelAbove inside (hs ++ ks) = parallelAbove (parallelAbove inside hs) ks := by
  induction hs generalizing inside with
  | nil => rfl
  | cons h hs ih => rw [List.cons_append, parallelAbove, parallelAbove, ih]

theorem parallelAbove_of_sequential {hs : List Header} (h : ∀ x ∈ hs, x.tags.parallel = false) (inside : Bool) :
    parallelAbove inside hs = inside := by
  induction hs generalizing inside with
  | nil => rfl
  | cons x hs ih =>
    rw [parallelAbove, h x List.mem_cons_self, Bool.or_false]
    exact ih (fun y hy => h y (List.mem_cons_of_mem x hy)) inside

theorem regularAll_append {inside : Bool} {ms ns : List Node} :
    RegularAll inside (ms ++ ns) ↔ RegularAll inside ms ∧ RegularAll inside ns := by
  induction ms with
  | nil => simp [RegularAll]
  | cons m ms ih => simp [RegularAll, ih, and_assoc]

theorem Regular.not_vectorized {inside : Bool} {h : Header} {body : List Node} (hr : (loop h body).Regular inside)
    (hbody : onlyLeaves body = false) : h.tags.vectorize = none := by
  cases hv : h.tags.vectorize with
  | none => rfl
  | some w =>
    have hleaves := hr.2.1.innermost (by simp [hv])
    rw [hbody] at hleaves
    cases hleaves

theorem onlyLeaves_append_loop (pre post : List Node) (h : Header) (body : List Node) :
    onlyLeaves (pre ++ loop h body :: post) = false := by simp [onlyLeaves, isLeaf]

section Context

variable {n n' : Node} {ns ns' : List Node} {path : Path} {hs : List Header}

theorem Occurs.regular (h : Occurs n ns path hs) {inside : Bool} (hr : RegularAll inside ns) :
    n.Regular (parallelAbove inside hs) := by
  induction h generalizing inside with
  | here pre post => exact (regularAll_append.1 hr).2.1
  | under hd pre post hb ih => exact ih (regularAll_append.1 hr).2.1.2.2.2

theorem Replaces.onlyLeaves_eq (h : Replaces n n' ns ns' hs) (hleaf : n'.isLeaf = n.isLeaf) :
    onlyLeaves ns' = onlyLeaves ns := by
  cases h with
  | here pre post => simp [onlyLeaves, hleaf]
  | under hd pre post hb => simp [onlyLeaves_append_loop]

theorem replaces_nest (ms : List Header) (x x' : Node) : Replaces x x' (nest ms [x]) (nest ms [x']) ms := by
  induction ms with
  | nil => exact .here [] []
  | cons m ms ih => exact .under m [] [] ih

theorem Replaces.ne_nil (h : Replaces n n' ns ns' hs) : ns' ≠ [] := by
  cases h <;> simp

theorem Replaces.regular (h : Replaces n n' ns ns' hs) (hleaf : n'.isLeaf = n.isLeaf) {inside : Bool}
    (hr : RegularAll inside ns) (hn : n.Regular (parallelAbove inside hs) → n'.Regular (parallelAbove inside hs)) :
    RegularAll inside ns' := by
  induction h generalizing inside with
  | here pre post =>
    obtain ⟨hpre, hnode, hpost⟩ := regularAll_append.1 hr
    exact regularAll_append.2 ⟨hpre, hn hnode, hpost⟩
  | under hd pre post hb ih =>
    obtain ⟨hpre, ⟨-, hfits, hparallel, hbody⟩, hpost⟩ := regularAll_append.1 hr
    have hfits' := hfits.of_body fun _ honly => by rwa [hb.onlyLeaves_eq hleaf]
    exact regularAll_append.2 ⟨hpre, ⟨hb.ne_nil, hfits', hparallel, ih hbody hn⟩, hpost⟩

theorem Removes.onlyLeaves (h : Removes n ns ns' hs) (honly : onlyLeaves ns = true) : onlyLeaves ns' = true := by
  cases h with
  | here pre post =>
    rw [Node.onlyLeaves, List.all_eq_true] at honly ⊢
    intro m hm
    apply honly
    simp only [List.mem_append, List.mem_cons] at hm ⊢
    tauto
  | under hd pre post hb =>
    rw [onlyLeaves_append_loop] at honly
    cases honly
  | prune hd pre post hb =>
    rw [onlyLeaves_append_loop] at honly
    cases honly

theorem Occurs.regular_detach (h : Occurs n ns path hs) {inside : Bool} (hr : RegularAll inside ns) :
    RegularAll inside (detach path ns) := by
  induction h generalizing inside with
  | here pre post =>
    obtain ⟨hpre, -, hpost⟩ := regularAll_append.1 hr
    rw [detach, List.eraseIdx_append_of_length_le (Nat.le_refl _), Nat.sub_self, List.eraseIdx_cons_zero]
    exact regularAll_append.2 ⟨hpre, hpost⟩
  | @under hd pre post body path hs hb ih =>
    obtain ⟨hpre, ⟨-, hfits, hparallel, hbody⟩, hpost⟩ := regularAll_append.1 hr
    have hrest := ih hbody
    have honly := hb.removes.onlyLeaves
    obtain ⟨j, path, rfl⟩ := List.exists_cons_of_ne_nil hb.ne_nil
    rw [detach, getElem?_length]
    · simp only
      split
      · rw [List.eraseIdx_append_of_length_le (Nat.le_refl _), Nat.sub_self, List.eraseIdx_cons_zero]
        exact regularAll_append.2 ⟨hpre, hpost⟩
      · next hne =>
        simp only [List.set_append_right _ _ (Nat.le_refl _), Nat.sub_self, List.set_cons_zero]
        exact regularAll_append.2 ⟨hpre, ⟨hne, hfits.of_body fun _ => honly, hparallel, hrest⟩, hpost⟩
    · simp

theorem Inserts.ne_nil (h : Inserts n ns ns' hs) : ns' ≠ [] := by
  cases h <;> simp

theorem Inserts.regular (h : Inserts n ns ns' hs) {inside : Bool} (hr : RegularAll inside ns)
    (hlast : ∀ x ∈ hs.getLast?, x.tags.vectorize = none) (hn : n.Regular (parallelAbove inside hs)) :
    RegularAll inside ns' := by
  induction h generalizing inside with
  | here pre post =>
    obtain ⟨hpre, hpost⟩ := regularAll_append.1 hr
    exact regularAll_append.2 ⟨hpre, hn, hpost⟩
  | @under hd pre post body body' hs hb ih =>
    obtain ⟨hpre, hnode, hpost⟩ := regularAll_append.1 hr
    have hinner : ∀ x ∈ hs.getLast?, x.tags.vectorize = none := by
      intro x hx
      apply hlast
      rw [List.getLast?_cons, Option.mem_def.1 hx]
      rfl
    -- only the last loop can have had nothing but leaves
    have hplain : hd.tags.vectorize = none := by
      cases hb with
      | here pre' post' => exact hlast hd rfl
      | under hd' pre' post' hb' => exact hnode.not_vectorized (onlyLeaves_append_loop _ _ _ _)
    obtain ⟨-, hfits, hparallel, hbody⟩ := hnode
    have hfits' : hd.Fits body' := hfits.of_body fun hv => by simp [hplain] at hv
    exact regularAll_append.2 ⟨hpre, ⟨hb.ne_nil, hfits', hparallel, ih hbody hinner hn⟩, hpost⟩

end Context

section Substitution

variable {m : String → Affine}

theorem isLeaf_substitute {n n' : Node} (h : n.substitute m = .ok n') : n'.isLeaf = n.isLeaf := by
  cases n with
  | leaf l =>
    obtain ⟨bindings, -, rfl⟩ := substitute_leaf_eq_ok.1 h
    rfl
  | loop hd body =>
    obtain ⟨h', body', -, -, -, -, rfl⟩ := substitute_loop_eq_ok h
    rfl

theorem traverses_substituteAll (m : String → Affine) : Traverses (substitute m) (substituteAll m) :=
  ⟨by rw [substituteAll], fun n ns => by rw [substituteAll]⟩

theorem onlyLeaves_substituteAll {ns ns' : List Node} (h : substituteAll m ns = .ok ns') :
    onlyLeaves ns' = onlyLeaves ns := by
  have hleaves := (traverses_substituteAll m).map_eq (fun _ _ => isLeaf_substitute) h
  have hall (ms : List Node) : onlyLeaves ms = (ms.map isLeaf).all id := by simp [onlyLeaves]
  rw [hall, hall, hleaves]

mutual

theorem regular_substitute (n : Node) {n' : Node} (h : n.substitute m = .ok n') {inside : Bool}
    (hr : n.Regular inside) : n'.Regular inside := by
  cases n with
  | leaf l =>
    obtain ⟨bindings, -, rfl⟩ := substitute_leaf_eq_ok.1 h
    trivial
  | loop hd body =>
    obtain ⟨h', body', hbound, -, htags, hb, rfl⟩ := substitute_loop_eq_ok h
    obtain ⟨hne, hfits, hparallel, hbody⟩ := hr
    have hne' : body' ≠ [] := by
      apply List.ne_nil_of_length_pos
      rw [(traverses_substituteAll m).length_eq hb]
      exact List.length_pos_of_ne_nil hne
    have hfits' := hbound.fits htags (onlyLeaves_substituteAll hb) hfits
    rw [Regular, htags]
    exact ⟨hne', hfits', hparallel, regularAll_substituteAll body hb hbody⟩

theorem regularAll_substituteAll (ns : List Node) {ns' : List Node} (h : substituteAll m ns = .ok ns')
    {inside : Bool} (hr : RegularAll inside ns) : RegularAll inside ns' := by
  cases ns with
  | nil =>
    cases h
    trivial
  | cons n ns =>
    obtain ⟨n', rest, hn, hrest, rfl⟩ := substituteAll_cons_eq_ok h
    exact ⟨regular_substitute n hn hr.1, regularAll_substituteAll ns hrest hr.2⟩

end

end Substitution

section Parallel

mutual

theorem regular_below_parallel (n : Node) {depth : Nat} (hn : ∀ l ∈ n.loops depth, l.2.1.tags.parallel = false)
    {inside : Bool} (hr : n.Regular inside) : n.Regular true := by
  cases n with
  | leaf l => trivial
  | loop hd body =>
    obtain ⟨hne, hfits, -, hbody⟩ := hr
    have hloop : hd.tags.parallel = false := hn _ List.mem_cons_self
    have hbelow := fun l hl => hn l (List.mem_cons_of_mem _ hl)
    exact ⟨hne, hfits, fun _ => hloop, regularAll_below_parallel body hbelow hbody⟩

theorem regularAll_below_parallel (ns : List Node) {depth : Nat}
    (hns : ∀ l ∈ loopsAll depth ns, l.2.1.tags.parallel = false) {inside : Bool} (hr : RegularAll inside ns) :
    RegularAll true ns := by
  cases ns with
  | nil => trivial
  | cons n ns =>
    exact ⟨regular_below_parallel n (fun l hl => hns l (List.mem_append_left _ hl)) hr.1,
      regularAll_below_parallel ns (fun l hl => hns l (List.mem_append_right _ hl)) hr.2⟩

end

end Parallel

section Reading

mutual

theorem Regular.loops (n : Node) {inside : Bool} (hr : n.Regular inside) {depth : Nat} :
    ∀ l ∈ n.loops depth, l.2.2 ≠ [] ∧ l.2.1.Fits l.2.2 := by
  cases n with
  | leaf l => exact fun l hl => absurd hl List.not_mem_nil
  | loop hd body =>
    obtain ⟨hne, hfits, -, hbody⟩ := hr
    exact List.forall_mem_cons.2 ⟨⟨hne, hfits⟩, RegularAll.loops body hbody⟩

theorem RegularAll.loops (ns : List Node) {inside : Bool} (hr : RegularAll inside ns) {depth : Nat} :
    ∀ l ∈ loopsAll depth ns, l.2.2 ≠ [] ∧ l.2.1.Fits l.2.2 := by
  cases ns with
  | nil => exact fun l hl => absurd hl List.not_mem_nil
  | cons n ns =>
    intro l hl
    rcases List.mem_append.1 hl with hl | hl
    · exact Regular.loops n hr.1 l hl
    · exact RegularAll.loops ns hr.2 l hl

end

mutual

theorem Regular.parallel_le (n : Node) {inside : Bool} (hr : n.Regular inside) :
    ∀ s ∈ n.leafStacks, inside.toNat + s.1.countP (fun h => h.tags.parallel) ≤ 1 := by
  cases n with
  | leaf l =>
    intro s hs
    rw [List.mem_singleton.1 hs]
    cases inside <;> simp
  | loop hd body =>
    obtain ⟨-, -, hparallel, hbody⟩ := hr
    intro s hs
    obtain ⟨t, ht, rfl⟩ := mem_leafStacks_loop.1 hs
    have hinner := RegularAll.parallel_le body hbody t ht
    rw [List.countP_cons]
    cases inside with
    | false =>
      cases hp : hd.tags.parallel with
      | false => simpa [hp] using hinner
      | true =>
        simp only [hp, Bool.or_true, Bool.toNat_true, Bool.toNat_false, if_true] at hinner ⊢
        omega
    | true =>
      have hp := hparallel rfl
      simpa [hp] using hinner

theorem RegularAll.parallel_le (ns : List Node) {inside : Bool} (hr : RegularAll inside ns) :
    ∀ s ∈ leafStacksAll ns, inside.toNat + s.1.countP (fun h => h.tags.parallel) ≤ 1 := by
  cases ns with
  | nil => exact fun s hs => absurd hs List.not_mem_nil
  | cons n ns =>
    intro s hs
    rcases List.mem_append.1 hs with hs | hs
    · exact Regular.parallel_le n hr.1 s hs
    · exact RegularAll.parallel_le ns hr.2 s hs

end

end Reading

section Building

theorem exists_leafStack : (n : Node) → {depth : Nat} → (∀ l ∈ n.loops depth, l.2.2 ≠ []) → ∃ s, s ∈ n.leafStacks
  | leaf l, _, _ => ⟨([], l), List.mem_cons_self⟩
  | loop _ [], _, h => absurd rfl (h _ List.mem_cons_self)
  | loop _ (n :: _), _, h =>
    have ⟨_, hs⟩ := exists_leafStack n fun l hl => h l (List.mem_cons_of_mem _ (List.mem_append_left _ hl))
    ⟨_, List.mem_map_of_mem (List.mem_append_left _ hs)⟩

theorem exists_leafStackAll {ns : List Node} (hne : ns ≠ []) {depth : Nat} (h : ∀ l ∈ loopsAll depth ns, l.2.2 ≠ []) :
    ∃ s, s ∈ leafStacksAll ns := by
  obtain ⟨n, ns, rfl⟩ := List.exists_cons_of_ne_nil hne
  obtain ⟨s, hs⟩ := exists_leafStack n fun l hl => h l (List.mem_append_left _ hl)
  exact ⟨s, List.mem_append_left _ hs⟩

mutual

theorem regular_of_loops (n : Node) {depth : Nat} (hloops : ∀ l ∈ n.loops depth, l.2.2 ≠ [] ∧ l.2.1.Fits l.2.2)
    {inside : Bool} (hparallel : ∀ s ∈ n.leafStacks, inside.toNat + s.1.countP (fun h => h.tags.parallel) ≤ 1) :
    n.Regular inside := by
  cases n with
  | leaf l => trivial
  | loop hd body =>
    obtain ⟨⟨hne, hfits⟩, hbelow⟩ := List.forall_mem_cons.1 hloops
    have hstack (s : List Header × Leaf) (hs : s ∈ leafStacksAll body) :
        inside.toNat + (s.1.countP (fun h => h.tags.parallel) + hd.tags.parallel.toNat) ≤ 1 := by
      have hle := hparallel _ (mem_leafStacks_loop.2 ⟨s, hs, rfl⟩)
      rw [List.countP_cons] at hle
      cases hp : hd.tags.parallel <;> simpa [hp] using hle
    refine ⟨hne, hfits, fun hinside => ?_, regularAll_of_loops body hbelow fun s hs => ?_⟩
    · obtain ⟨s, hs⟩ := exists_leafStackAll hne fun l hl => (hbelow l hl).1
      have hle := hstack s hs
      rw [hinside] at hle
      cases hp : hd.tags.parallel with
      | false => rfl
      | true =>
        simp only [hp, Bool.toNat_true] at hle
        omega
    · have hle := hstack s hs
      cases inside <;> cases hp : hd.tags.parallel <;> simp only [hp, Bool.toNat_true, Bool.toNat_false, Bool.or_true,
        Bool.or_false] at hle ⊢ <;> omega

theorem regularAll_of_loops (ns : List Node) {depth : Nat}
    (hloops : ∀ l ∈ loopsAll depth ns, l.2.2 ≠ [] ∧ l.2.1.Fits l.2.2) {inside : Bool}
    (hparallel : ∀ s ∈ leafStacksAll ns, inside.toNat + s.1.countP (fun h => h.tags.parallel) ≤ 1) :
    RegularAll inside ns := by
  cases ns with
  | nil => trivial
  | cons n ns =>
    obtain ⟨hnode, hrest⟩ := List.forall_mem_append.1 hloops
    obtain ⟨hstack, hstacks⟩ := List.forall_mem_append.1 hparallel
    exact ⟨regular_of_loops n hnode hstack, regularAll_of_loops ns hrest hstacks⟩

end

end Building

section Untagged

mutual

def Untagged : Node → Prop
  | leaf _ => True
  | loop h body => h.tags = {} ∧ body ≠ [] ∧ UntaggedAll body

def UntaggedAll : List Node → Prop
  | [] => True
  | n :: ns => n.Untagged ∧ UntaggedAll ns

end

mutual

theorem Untagged.regular (n : Node) (h : n.Untagged) (inside : Bool) : n.Regular inside := by
  cases n with
  | leaf l => trivial
  | loop hd body =>
    obtain ⟨htags, hne, hbody⟩ := h
    exact ⟨hne, Header.fits_of_untagged htags, fun _ => by rw [htags], UntaggedAll.regular body hbody _⟩

theorem UntaggedAll.regular (ns : List Node) (h : UntaggedAll ns) (inside : Bool) : RegularAll inside ns := by
  cases ns with
  | nil => trivial
  | cons n ns => exact ⟨Untagged.regular n h.1 inside, UntaggedAll.regular ns h.2 inside⟩

end

theorem untaggedAll_append {ms ns : List Node} : UntaggedAll (ms ++ ns) ↔ UntaggedAll ms ∧ UntaggedAll ns := by
  induction ms with
  | nil => simp [UntaggedAll]
  | cons m ms ih => simp [UntaggedAll, ih, and_assoc]

theorem untaggedAll_nest {hs : List Header} (htags : ∀ h ∈ hs, h.tags = {}) {body : List Node} (hne : body ≠ [])
    (hbody : UntaggedAll body) : UntaggedAll (nest hs body) := by
  induction hs with
  | nil => exact hbody
  | cons h hs ih =>
    have hnest : nest hs body ≠ [] := by
      cases hs with
      | nil => exact hne
      | cons x xs => exact List.cons_ne_nil _ _
    exact ⟨⟨htags h List.mem_cons_self, hnest, ih fun x hx => htags x (List.mem_cons_of_mem h hx)⟩, trivial⟩

theorem Inserts.untagged {n : Node} {ns ns' : List Node} {hs : List Header} (h : Inserts n ns ns' hs)
    (hns : UntaggedAll ns) (hn : n.Untagged) : UntaggedAll ns' := by
  induction h with
  | here pre post =>
    obtain ⟨hpre, hpost⟩ := untaggedAll_append.1 hns
    exact untaggedAll_append.2 ⟨hpre, hn, hpost⟩
  | under hd pre post hb ih =>
    obtain ⟨hpre, ⟨htags, -, hbody⟩, hpost⟩ := untaggedAll_append.1 hns
    exact untaggedAll_append.2 ⟨hpre, ⟨htags, hb.ne_nil, ih hbody⟩, hpost⟩

end Untagged

end Node

end LoopNest
