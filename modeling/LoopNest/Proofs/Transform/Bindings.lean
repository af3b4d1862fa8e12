import LoopNest.Proofs.Transform.Effect

namespace LoopNest

namespace Affine

def Grows (f : Affine) (a : String) : Prop :=
  ∀ env : Valuation, f.value (Function.update env a (env a + 1)) = f.value env + 1

theorem grows_var (a : String) : (var a).Grows a := fun env => by rw [value_var, value_var, Function.update_self]

theorem value_update_of_not_mem {f : Affine} {a : String} (ha : a ∉ f.atoms) (env : Valuation) (v : Int) :
    f.value (Function.update env a v) = f.value env :=
  value_congr_atoms fun _ hx => Function.update_of_ne (ne_of_mem_of_not_mem hx ha) _ _

theorem mem_atoms_var {a b : String} : b ∈ (var a).atoms ↔ b = a := by simp [var, atoms]

theorem Grows.mem_atoms {f : Affine} {a : String} (hf : f.Grows a) : a ∈ f.atoms := by
  by_contra ha
  have hvalue := hf fun _ => 0
  rw [value_update_of_not_mem ha] at hvalue
  omega

theorem Grows.bindVars {f g : Affine} {m : String → Affine} {a b : String} (hf : f.Grows a)
    (h : f.bindVars m = .ok g) (ha : (m a).Grows b) (hothers : ∀ x ∈ f.atoms, x ≠ a → b ∉ (m x).atoms) :
    g.Grows b := by
  intro env
  rw [value_bindVars _ h, value_bindVars _ h, ← hf]
  refine value_congr_atoms fun x hx => ?_
  by_cases hxa : x = a
  · rw [hxa, Function.update_self, ha]
  · rw [Function.update_of_ne hxa, value_update_of_not_mem (hothers x hx hxa)]

end Affine

theorem grows_tileValue {outer inner : String} {factor lower : Int} {value : Affine}
    (h : tileValue outer inner factor lower = .ok value) (hne : inner ≠ outer) : value.Grows inner := by
  intro env
  rw [(tileValue_eq_ok h).2, (tileValue_eq_ok h).2, Function.update_self, Function.update_of_ne hne.symm]
  omega

namespace Node

mutual

theorem scoped_of_stack {p : Program} (n : Node) {names : List String} (h : n.Scoped p names)
    {s : List Header × Leaf} (hs : s ∈ n.leafStacks) : s.2.Scoped p ((s.1.map Header.dim).reverse ++ names) := by
  cases n with
  | leaf l =>
    obtain rfl := List.mem_singleton.1 hs
    exact h
  | loop hd body =>
    obtain ⟨t, ht, rfl⟩ := mem_leafStacks_loop.1 hs
    rw [List.map_cons, List.reverse_cons, List.append_assoc, List.singleton_append]
    exact scopedAll_of_stack body h.2 ht

theorem scopedAll_of_stack {p : Program} (ns : List Node) {names : List String} (h : ScopedAll p names ns)
    {s : List Header × Leaf} (hs : s ∈ leafStacksAll ns) : s.2.Scoped p ((s.1.map Header.dim).reverse ++ names) := by
  cases ns with
  | nil => cases hs
  | cons n ns =>
    rcases List.mem_append.1 hs with hs | hs
    · exact scoped_of_stack n h.1 hs
    · exact scopedAll_of_stack ns h.2 hs

end

def Counted (ls : List Leaf) : Prop := ∀ l ∈ ls, ∀ f ∈ l.bindings, ∃ a, f.Grows a

mutual

theorem over_bindings {p : Program} (n : Node) {names : List String} (h : n.Tidy p names) :
    ∀ l ∈ n.leaves, ∀ f ∈ l.bindings, f.Over (names ++ n.dims) := by
  cases n with
  | leaf l =>
    intro x hx f hf
    obtain rfl := List.mem_singleton.1 hx
    exact (h.inScope f hf).mono fun a ha => List.mem_append_left _ ha
  | loop hd body =>
    intro l hl f hf
    refine (overAll_bindings body h.2 l hl f hf).mono fun a ha => ?_
    simpa [dims, or_left_comm] using ha

theorem overAll_bindings {p : Program} (ns : List Node) {names : List String} (h : TidyAll p names ns) :
    ∀ l ∈ leavesAll ns, ∀ f ∈ l.bindings, f.Over (names ++ dimsAll ns) := by
  cases ns with
  | nil => exact fun l hl => absurd hl List.not_mem_nil
  | cons n ns =>
    intro l hl f hf
    rcases List.mem_append.1 hl with hl | hl
    · refine (over_bindings n h.1 l hl f hf).mono fun a ha => ?_
      simp only [dimsAll, List.mem_append] at ha ⊢
      tauto
    · refine (overAll_bindings ns h.2 l hl f hf).mono fun a ha => ?_
      simp only [dimsAll, List.mem_append] at ha ⊢
      tauto

end

mutual

theorem bindings_substitute {m : String → Affine} (n : Node) {n' : Node} (h : n.substitute m = .ok n') :
    ∀ l' ∈ n'.leaves, ∀ g ∈ l'.bindings, ∃ l ∈ n.leaves, ∃ f ∈ l.bindings, f.bindVars m = .ok g := by
  cases n with
  | leaf l =>
    obtain ⟨bindings, hb, rfl⟩ := substitute_leaf_eq_ok.1 h
    intro l' hl' g hg
    obtain rfl := List.mem_singleton.1 hl'
    exact ⟨l, List.mem_cons_self, (traverses_substituteForms m).exists_of_mem hb hg⟩
  | loop hd body =>
    obtain ⟨hd', body', -, -, -, hb, rfl⟩ := substitute_loop_eq_ok h
    exact bindings_substituteAll body hb

theorem bindings_substituteAll {m : String → Affine} (ns : List Node) {ns' : List Node}
    (h : substituteAll m ns = .ok ns') :
    ∀ l' ∈ leavesAll ns', ∀ g ∈ l'.bindings, ∃ l ∈ leavesAll ns, ∃ f ∈ l.bindings, f.bindVars m = .ok g := by
  cases ns with
  | nil =>
    cases h
    exact fun l hl => absurd hl List.not_mem_nil
  | cons n ns =>
    obtain ⟨n', rest, hn, hr, rfl⟩ := substituteAll_cons_eq_ok h
    intro l' hl' g hg
    rcases List.mem_append.1 hl' with hl' | hl'
    · obtain ⟨l, hl, hf⟩ := bindings_substitute n hn l' hl' g hg
      exact ⟨l, List.mem_append_left _ hl, hf⟩
    · obtain ⟨l, hl, hf⟩ := bindings_substituteAll ns hr l' hl' g hg
      exact ⟨l, List.mem_append_right _ hl, hf⟩

end

section Context

variable {n n' : Node} {ns ns' : List Node} {hs : List Header}

theorem Replaces.counted (h : Replaces n n' ns ns' hs) (hns : Counted (leavesAll ns))
    (hn : Counted n.leaves → Counted n'.leaves) : Counted (leavesAll ns') := by
  obtain ⟨pre, post, hbefore, hafter⟩ := h.leaves_eq
  rw [hbefore] at hns
  rw [hafter]
  simp only [Counted, List.forall_mem_append] at hns hn ⊢
  exact ⟨⟨hns.1.1, hn hns.1.2⟩, hns.2⟩

theorem Removes.counted (h : Removes n ns ns' hs) (hns : Counted (leavesAll ns)) :
    Counted n.leaves ∧ Counted (leavesAll ns') :=
  List.forall_mem_append.1 fun l hl => hns l (h.leaves_perm.symm.subset hl)

theorem Inserts.counted (h : Inserts n ns ns' hs) (hn : Counted n.leaves) (hns : Counted (leavesAll ns)) :
    Counted (leavesAll ns') := fun l hl =>
  List.forall_mem_append.2 ⟨hn, hns⟩ l (h.removes.leaves_perm.subset hl)

theorem counted_substitute {m : String → Affine} {ls ls' : List Leaf} {names : List String}
    (hforms : ∀ l' ∈ ls', ∀ g ∈ l'.bindings, ∃ l ∈ ls, ∃ f ∈ l.bindings, f.bindVars m = .ok g)
    (hover : ∀ l ∈ ls, ∀ f ∈ l.bindings, f.Over names)
    (hm : ∀ a ∈ names, ∃ b, (m a).Grows b ∧ ∀ x ∈ names, x ≠ a → b ∉ (m x).atoms) (h : Counted ls) :
    Counted ls' := by
  intro l' hl' g hg
  obtain ⟨l, hl, f, hf, hbind⟩ := hforms l' hl' g hg
  obtain ⟨a, ha⟩ := h l hl f hf
  have hnames := hover l hl f hf
  obtain ⟨b, hb, hothers⟩ := hm a (hnames a ha.mem_atoms)
  exact ⟨b, ha.bindVars hbind hb fun x hx => hothers x (hnames x hx)⟩

end Context

end Node

open Node

section Steps

variable {p : Program} {roots roots' : List Node} (hsound : Sound p roots) (hr : Counted (leavesAll roots))
include hsound hr

theorem counted_divides {factor : Nat} {tags : Tags} {hd : Header} {body : List Node} {path : Path}
    {hs : List Header} (h : Divides roots roots' factor tags hd body path hs) : Counted (leavesAll roots') := by
  rcases h.effect with ⟨rfl, -⟩ | ⟨s, hsplits⟩
  · exact (h.occurs.replaces fun _ => .loop { hd with tags } body).counted hr id
  · obtain ⟨outer, inner, value, clamp, body', ht, hreplaces⟩ := hsplits.exists_tiled h.occurs
    have hne : inner ≠ outer := fun heq => ht.freshInner (heq ▸ List.mem_cons_self)
    have hforms := bindings_substituteAll body ht.body_eq
    have hover : ∀ l ∈ leavesAll body, ∀ f ∈ l.bindings, f.Over (dimsAll roots) := by
      have htidy := h.occurs.tidy hsound.tidy
      refine fun l hl f hf => (over_bindings (.loop hd body) htidy l hl f hf).mono fun a ha => ?_
      refine h.occurs.dims_sublist.subset (List.mem_append.2 ((List.mem_append.1 ha).imp_left fun ha => ?_))
      exact (mem_scope.1 ha).resolve_left List.not_mem_nil
    have hold : ∀ a ∈ dimsAll roots, a ≠ outer ∧ a ≠ inner := by
      refine fun a ha => ⟨?_, ?_⟩
      · rintro rfl
        exact ht.freshOuter ha
      · rintro rfl
        exact ht.freshInner (List.mem_cons_of_mem _ ha)
    refine hreplaces.counted hr fun hbody => ?_
    have hleaves : (Node.loop (outerHeader hd s factor outer) [.loop (innerHeader factor inner clamp tags)
        body']).leaves = leavesAll body' := by
      rw [leaves, leavesAll, leaves, leavesAll, List.append_nil]
    rw [hleaves]
    -- the value of the tile grows with the inner loop, and every other dimension stands for itself
    refine counted_substitute hforms hover (fun a ha => ?_) hbody
    by_cases hdim : a = hd.dim
    · refine ⟨inner, by simpa only [if_pos hdim] using grows_tileValue ht.value_eq hne, fun x hx hxa => ?_⟩
      rw [if_neg (hdim ▸ hxa), Affine.mem_atoms_var]
      exact (hold x hx).2.symm
    · refine ⟨a, by simpa only [if_neg hdim] using Affine.grows_var a, fun x hx hxa => ?_⟩
      split
      · intro hmem
        rcases List.mem_cons.1 ((tileValue_eq_ok ht.value_eq).1 a hmem) with heq | hmem
        · exact (hold a ha).1 heq
        · exact (hold a ha).2 (List.mem_singleton.1 hmem)
      · rw [Affine.mem_atoms_var]
        exact hxa.symm

theorem counted_moves {rest : List Node} {rho : String → String} {outer kept moved : List Header} {n n' : Node}
    (h : Moves roots rest roots' rho outer kept moved n n') : Counted (leavesAll roots') := by
  obtain ⟨path, ho, -⟩ := h.from_place
  obtain ⟨hn, hrest⟩ := h.removes.counted hr
  refine h.inserts.counted (counted_substitute (bindings_substitute n h.substitute)
    (over_bindings n (ho.tidy hsound.tidy)) (fun a ha => ?_) hn) hrest
  refine ⟨rho a, Affine.grows_var _, fun x hx hxa hmem => ?_⟩
  have heq := Affine.mem_atoms_var.1 hmem
  -- loops below the branch keep their names, which no loop around it gets
  have hbelow {w : String} (hw : w ∈ n.dims) {y : String} (hy : y ≠ w) : rho y ≠ rho w := by
    obtain ⟨hfix, hspares⟩ := h.spares hsound w hw
    have hsame : rho w = w := by simpa [Affine.var] using hfix
    exact fun h => hspares y hy (Affine.mem_atoms_var.2 (hsame.symm.trans h.symm))
  rcases List.mem_append.1 ha with ha | ha
  · rcases List.mem_append.1 hx with hx | hx
    · exact hxa (h.injective hsound x hx a ha heq.symm)
    · exact hbelow hx hxa.symm heq
  · exact hbelow ha hxa heq.symm

theorem counted_applyTo {t : Transformation} (h : t.applyTo p roots = .ok roots') : Counted (leavesAll roots') := by
  cases change_of_applyTo hsound h with
  | divides h => exact counted_divides hsound hr h
  | parallelizes h =>
    rw [h.result]
    exact (h.occurs.replaces_header _).counted hr id
  | swaps h =>
    rw [h.result]
    exact (replaces_swap h.occurs h.inside).counted hr fun hn => by
      simpa [Counted, leaves, leavesAll_nest, leavesAll] using hn
  | moves h => exact counted_moves hsound hr h

end Steps

namespace Initial

theorem counted_place {s s' : State} {index : Nat} {c : Computation} {buffers : List Buffer}
    (hc : c.WellFormed buffers) (h : place s index c = .ok s') (hs : Counted (leavesAll s.roots)) :
    Counted (leavesAll s'.roots) := by
  obtain ⟨path, shared, fresh, n, r, -, -, hplaced, -⟩ := placed_of_place hc h
  refine hplaced.inserts.counted ?_ hs
  have hleaves := congrArg leavesAll hplaced.node
  rw [leavesAll_nest, leavesAll, leavesAll, leavesAll, leavesAll, List.append_nil, List.append_nil] at hleaves
  rw [← hleaves]
  intro l hl f hf
  obtain rfl := List.mem_singleton.1 hl
  obtain ⟨x, -, rfl⟩ := List.mem_map.1 hf
  exact ⟨x.dim, Affine.grows_var _⟩

theorem counted_placeAll {p : Program} (hp : p.WellFormed) {s s' : State} {index : Nat} {cs : List Computation}
    (hcs : cs ⊆ p.computations) (h : placeAll s index cs = .ok s') (hs : Counted (leavesAll s.roots)) :
    Counted (leavesAll s'.roots) := by
  induction cs generalizing s index with
  | nil =>
    cases h
    exact hs
  | cons c cs ih =>
    obtain ⟨next, hnext, h⟩ := bind_eq_ok.1 h
    obtain ⟨hc, hcs⟩ := List.cons_subset.1 hcs
    exact ih hcs h (counted_place (hp c hc) hnext hs)

end Initial

theorem Reshaped.counted {p : Program} (hp : p.WellFormed) {roots : List Node} (h : Reshaped p roots) :
    Counted (leavesAll roots) := by
  induction h with
  | initial h =>
    obtain ⟨s, hs, hroots⟩ := bind_eq_ok.1 h
    cases hroots
    exact Initial.counted_placeAll hp (List.Subset.refl _) hs fun l hl => absurd hl List.not_mem_nil
  | step t hr h ih => exact counted_applyTo (hr.sound hp) ih h

end LoopNest
