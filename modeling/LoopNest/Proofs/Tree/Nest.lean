import LoopNest.Proofs.Tree.Path

namespace LoopNest.Node

def withHeader (h : Header) : Node → Node
  | loop _ body => loop h body
  | leaf l => leaf l

theorem setHeader_eq (h : Header) (path : Path) (ns : List Node) :
    setHeader h path ns = modifyAt (withHeader h) path ns := rfl

theorem modifyAt_modifyAt (f g : Node → Node) {path : Path} (ns : List Node) (hne : path ≠ []) :
    modifyAt g path (modifyAt f path ns) = modifyAt (g ∘ f) path ns := by
  induction path generalizing ns with
  | nil => exact absurd rfl hne
  | cons i rest ih =>
    cases rest with
    | nil => exact List.modify_modify_eq f g i ns
    | cons j rest =>
      rw [modifyAt_cons _ _ (List.cons_ne_nil _ _), modifyAt_cons _ _ (List.cons_ne_nil _ _),
        modifyAt_cons _ _ (List.cons_ne_nil _ _), List.modify_modify_eq]
      congr 1
      funext n
      cases n with
      | leaf l => rfl
      | loop h body => simp only [Function.comp_apply, onBody, ih body (List.cons_ne_nil _ _)]

theorem modifyAt_append (f : Node → Node) {path rest : Path} (hne : path ≠ []) (hrest : rest ≠ [])
    (ns : List Node) : modifyAt f (path ++ rest) ns = modifyAt (onBody (modifyAt f rest)) path ns := by
  induction path generalizing ns with
  | nil => exact absurd rfl hne
  | cons i path ih =>
    cases path with
    | nil => rw [List.singleton_append, modifyAt_cons f i hrest, modifyAt]
    | cons j path =>
      rw [List.cons_append, modifyAt_cons f i (by simp), modifyAt_cons _ i (List.cons_ne_nil _ _)]
      congr 1
      funext n
      cases n with
      | leaf l => rfl
      | loop h body => simp only [onBody, ih (List.cons_ne_nil _ _) body]

theorem Occurs.above_append {h : Header} {body ns : List Node} {path rest : Path} {hs : List Header}
    (ho : Occurs (loop h body) ns path hs) (hrest : rest ≠ []) :
    above ns (path ++ rest) = above ns path ++ (h, body) :: above body rest := by
  induction ho with
  | here pre post =>
    rw [List.singleton_append, above_cons _ hrest, getElem?_length]
    rfl
  | @under hd pre post inside path hs hb ih =>
    rw [List.cons_append, above_cons _ (by simp [hrest]), above_cons _ hb.ne_nil, getElem?_length]
    simp only [ih, List.cons_append]

theorem Occurs.of_append {x : Node} {h : Header} {body ns : List Node} {path rest : Path}
    {hs hs' : List Header} (ho : Occurs (loop h body) ns path hs) (hx : Occurs x ns (path ++ rest) hs')
    (hrest : rest ≠ []) : ∃ mids, Occurs x body rest mids ∧ hs' = hs ++ h :: mids := by
  induction ho generalizing hs' with
  | here pre post =>
    obtain ⟨i, hp, -, -⟩ | ⟨i, tail, hd, inside, hs', hp, rfl, hi, hb⟩ := hx.eq_cons
    · exact absurd (List.cons.inj hp).2 hrest
    · obtain ⟨rfl, rfl⟩ := List.cons.inj hp
      rw [getElem?_length] at hi
      cases hi
      exact ⟨hs', hb, rfl⟩
  | @under hd pre post inside path hs hb ih =>
    obtain ⟨i, hp, -, -⟩ | ⟨i, tail, hd', inside', hs', hp, rfl, hi, hb'⟩ := hx.eq_cons
    · exact absurd (List.append_eq_nil_iff.1 (List.cons.inj hp).2).2 hrest
    · obtain ⟨rfl, rfl⟩ := List.cons.inj hp
      rw [getElem?_length] at hi
      cases hi
      obtain ⟨mids, hmids, rfl⟩ := ih hb'
      exact ⟨mids, hmids, rfl⟩

theorem Occurs.take_above {x : Node} {h : Header} {body ns : List Node} {path path' : Path} {hs hs' : List Header}
    (ho : Occurs (loop h body) ns path hs) (hx : Occurs x ns path' hs') (hpath : path <+: path')
    (hlt : path.length < path'.length) : hs'.take (hs.length + 1) = hs ++ [h] := by
  obtain ⟨rest, rfl⟩ := hpath
  have hrest : rest ≠ [] := by
    rintro rfl
    simp at hlt
  obtain ⟨mids, -, rfl⟩ := ho.of_append hx hrest
  rw [List.take_length_add_append, List.take_one, List.head?_cons, Option.toList_some]

def nest : List Header → List Node → List Node
  | [], body => body
  | h :: hs, body => [loop h (nest hs body)]

theorem nest_snoc (hs : List Header) (h : Header) (body : List Node) :
    nest (hs ++ [h]) body = nest hs [loop h body] := by
  induction hs with
  | nil => rfl
  | cons x hs ih => rw [List.cons_append, nest, nest, ih]

theorem pointsAll_nest (env : Valuation) (hs : List Header) (body : List Node) :
    pointsAll env (nest hs body) = (runs env hs).flatMap fun e => pointsAll e body := by
  induction hs generalizing env with
  | nil => simp [nest, runs]
  | cons h hs ih =>
    rw [nest, pointsAll, pointsAll, List.append_nil, points, runs, List.flatMap_assoc]
    exact List.flatMap_congr fun v _ => ih _

theorem dimsAll_nest (hs : List Header) (body : List Node) :
    dimsAll (nest hs body) = hs.map Header.dim ++ dimsAll body := by
  induction hs with
  | nil => rfl
  | cons h hs ih => simp [nest, dimsAll, dims, ih]

theorem leavesAll_nest (hs : List Header) (body : List Node) :
    leavesAll (nest hs body) = leavesAll body := by
  induction hs with
  | nil => rfl
  | cons h hs ih => simp [nest, leavesAll, leaves, ih]

def HeadersTidy (names : List String) : List Header → Prop
  | [] => True
  | h :: hs => h.Tidy names ∧ HeadersTidy (h.dim :: names) hs

theorem tidyAll_nest {p : Program} {names : List String} {hs : List Header} {body : List Node} :
    TidyAll p names (nest hs body) ↔ HeadersTidy names hs ∧ TidyAll p (scope names hs) body := by
  induction hs generalizing names with
  | nil => simp [nest, HeadersTidy, scope]
  | cons h hs ih => simp [nest, TidyAll, Tidy, HeadersTidy, scope, ih, and_assoc]

theorem Occurs.eq_nest {x : Node} {ns : List Node} {path : Path} {hs : List Header} (h : Occurs x ns path hs)
    (hns : ns.length = 1) (habove : ∀ l ∈ above ns path, l.2.length = 1) : ns = nest hs [x] := by
  induction h with
  | here pre post =>
    rw [List.length_append, List.length_cons] at hns
    obtain rfl := List.eq_nil_of_length_eq_zero (l := pre) (by omega)
    obtain rfl := List.eq_nil_of_length_eq_zero (l := post) (by omega)
    rfl
  | @under hd pre post inside path hs hb ih =>
    rw [List.length_append, List.length_cons] at hns
    obtain rfl := List.eq_nil_of_length_eq_zero (l := pre) (by omega)
    obtain rfl := List.eq_nil_of_length_eq_zero (l := post) (by omega)
    have hcons := (Occurs.here (n := loop hd inside) [] []).above_append hb.ne_nil
    simp only [List.nil_append, List.length_nil, List.singleton_append] at hcons habove ⊢
    rw [hcons] at habove
    rw [nest, ← ih (habove (hd, inside) (by simp)) fun l hl => habove l (by simp [hl])]

theorem eq_nest_cons {h : Header} {hs : List Header} {body pre post : List Node} {x : Node}
    (heq : pre ++ x :: post = nest (h :: hs) body) : pre = [] ∧ post = [] ∧ x = loop h (nest hs body) := by
  cases pre with
  | nil =>
    obtain ⟨rfl, rfl⟩ := List.cons.inj heq
    exact ⟨rfl, rfl, rfl⟩
  | cons y pre => simp [nest] at heq

theorem Occurs.modifyAt_nest {x : Node} {path : Path} {hs ms : List Header} {ns : List Node}
    (h : Occurs x ns path hs) (hns : ns = nest ms [x]) (hlen : hs = ms) (f : Node → Node) :
    modifyAt f path ns = nest ms [f x] := by
  subst hlen
  induction h with
  | here pre post =>
    obtain rfl : pre = [] := by
      cases pre with
      | nil => rfl
      | cons y pre => simp [nest] at hns
    obtain rfl : post = [] := by simpa [nest] using hns
    rfl
  | @under hd pre post inside path hs hb ih =>
    obtain ⟨rfl, rfl, hloop⟩ := eq_nest_cons hns
    have hinside := (loop.inj hloop).2
    rw [modifyAt_cons _ _ hb.ne_nil]
    simp only [nest, List.nil_append, List.length_nil, List.modify_zero_cons, onBody, ih hinside]

end LoopNest.Node

namespace LoopNest

def Header.Free (h : Header) (a : String) : Prop := ∀ f ∈ h.limits, a ∉ f.atoms

theorem Header.Tidy.strip {h : Header} {names more : List String} (ht : h.Tidy more)
    (hfree : ∀ a ∈ more, a ∈ names ∨ h.Free a) : h.Tidy names where
  inScope f hf a ha := (hfree a (ht.inScope f hf a ha)).resolve_right fun hfree => hfree f hf ha
  canonical := ht.canonical

theorem Header.Tidy.free {h : Header} {names : List String} (ht : h.Tidy names) {a : String}
    (ha : a ∉ names) : h.Free a := fun f hf hmem => ha (ht.inScope f hf a hmem)

theorem Header.Free.values {h : Header} {a : String} (hfree : h.Free a) (env : Valuation) (v : Int) :
    h.values (Function.update env a v) = h.values env := by
  apply values_congr_limits
  intro f hf
  refine Affine.value_congr_atoms fun b hb => ?_
  refine Function.update_of_ne ?_ _ _
  rintro rfl
  exact hfree f hf hb

namespace Node

section Moves

variable {x : Header} {ms : List Header}

theorem runs_swap {a b : Header} (hab : b.Free a.dim) (hba : a.Free b.dim) (hne : a.dim ≠ b.dim)
    (hs : List Header) (env : Valuation) : (runs env (a :: b :: hs)).Perm (runs env (b :: a :: hs)) := by
  simp only [runs, hab.values, hba.values]
  refine (flatMap_comm_perm _ _ _).trans (List.Perm.of_eq ?_)
  exact List.flatMap_congr fun v _ => List.flatMap_congr fun w _ => by rw [Function.update_comm hne]

theorem runs_moveOut (hx : ∀ m ∈ ms, x.Free m.dim) (hms : ∀ m ∈ ms, m.Free x.dim ∧ m.dim ≠ x.dim)
    (env : Valuation) : (runs env (ms ++ [x])).Perm (runs env (x :: ms)) := by
  induction ms generalizing env with
  | nil => exact List.Perm.refl _
  | cons m ms ih =>
    obtain ⟨hfree, hne⟩ := hms m List.mem_cons_self
    have hinner (e : Valuation) := ih (fun l hl => hx l (List.mem_cons_of_mem m hl))
      (fun l hl => hms l (List.mem_cons_of_mem m hl)) e
    calc
      (runs env (m :: (ms ++ [x]))).Perm (runs env (m :: x :: ms)) :=
        List.Perm.flatMap_left _ fun v _ => hinner _
      List.Perm _ (runs env (x :: m :: ms)) := runs_swap (hx m List.mem_cons_self) hfree hne ms env

end Moves

theorem HeadersTidy.strip {names more : List String} {hs : List Header} (h : HeadersTidy more hs)
    (hfree : ∀ x ∈ hs, ∀ a ∈ more, a ∈ names ∨ x.Free a) : HeadersTidy names hs := by
  induction hs generalizing names more with
  | nil => trivial
  | cons x hs ih =>
    refine ⟨h.1.strip (hfree x List.mem_cons_self), ih h.2 fun y hy a ha => ?_⟩
    rcases List.mem_cons.1 ha with rfl | ha
    · exact Or.inl List.mem_cons_self
    · exact (hfree y (List.mem_cons_of_mem x hy) a ha).imp_left (List.mem_cons_of_mem _)

theorem HeadersTidy.free {names : List String} {hs : List Header} (h : HeadersTidy names hs) {a : String}
    (ha : a ∉ names) (hdims : a ∉ hs.map Header.dim) : ∀ x ∈ hs, x.Free a := by
  induction hs generalizing names with
  | nil => simp
  | cons x hs ih =>
    simp only [List.map_cons, List.mem_cons, not_or] at hdims
    intro y hy
    rcases List.mem_cons.1 hy with rfl | hy
    · exact h.1.free ha
    · exact ih h.2 (fun hmem => (List.mem_cons.1 hmem).elim hdims.1 ha) hdims.2 y hy

theorem HeadersTidy.canonical {names : List String} {hs : List Header} (h : HeadersTidy names hs) :
    ∀ x ∈ hs, ∀ f ∈ x.limits, f.IsCanonical := by
  induction hs generalizing names with
  | nil => simp
  | cons x hs ih => exact List.forall_mem_cons.2 ⟨h.1.canonical, ih h.2⟩

theorem scope_append (names : List String) (hs ks : List Header) :
    scope names (hs ++ ks) = scope (scope names hs) ks := by
  induction hs generalizing names with
  | nil => rfl
  | cons h hs ih => rw [List.cons_append, scope, scope, ih]

theorem headersTidy_append {names : List String} {hs ks : List Header} :
    HeadersTidy names (hs ++ ks) ↔ HeadersTidy names hs ∧ HeadersTidy (scope names hs) ks := by
  induction hs generalizing names with
  | nil => simp [HeadersTidy, scope]
  | cons h hs ih => simp only [List.cons_append, HeadersTidy, ih, scope, and_assoc]

theorem headersTidy_snoc {names : List String} {hs : List Header} {x : Header} :
    HeadersTidy names (hs ++ [x]) ↔ HeadersTidy names hs ∧ x.Tidy (scope names hs) := by
  simp only [headersTidy_append, HeadersTidy, and_true]

theorem Occurs.headersTidy {p : Program} {names : List String} {n : Node} {ns : List Node} {path : Path}
    {hs : List Header} (h : Occurs n ns path hs) (ht : TidyAll p names ns) : HeadersTidy names hs := by
  induction h generalizing names with
  | here pre post => trivial
  | under hd pre post hb ih =>
    obtain ⟨-, ⟨hhd, hbody⟩, -⟩ := tidyAll_append.1 ht
    exact ⟨hhd, ih hbody⟩

theorem runs_append (env : Valuation) (hs ks : List Header) :
    runs env (hs ++ ks) = (runs env hs).flatMap fun e => runs e ks := by
  induction hs generalizing env with
  | nil => simp [runs]
  | cons h hs ih => simp only [List.cons_append, runs, ih, List.flatMap_assoc]

theorem pointsBelow_append (env : Valuation) (hs ks : List Header) (n : Node) :
    pointsBelow env (hs ++ ks) n = (runs env hs).flatMap fun e => pointsBelow e ks n := by
  simp only [pointsBelow, runs_append, List.flatMap_assoc]

end Node

end LoopNest
