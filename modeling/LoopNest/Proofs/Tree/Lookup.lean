import LoopNest.Proofs.Tree.Nest
import LoopNest.Transform.Basic

namespace LoopNest

structure Node.Sound (p : Program) (ns : List Node) : Prop where
  tidy : Node.TidyAll p [] ns
  dims : (Node.dimsAll ns).Nodup
  leaves : ((Node.leavesAll ns).map Leaf.computation).Nodup

namespace Node

section Search

variable {P : Node → Bool}

theorem Occurs.cons {x : Node} {ns : List Node} {k : Nat} {rest : Path} {hs : List Header} (n : Node)
    (h : Occurs x ns (k :: rest) hs) : Occurs x (n :: ns) ((k + 1) :: rest) hs := by
  cases h with
  | here pre post => exact .here (n :: pre) post
  | under hd pre post hb => exact .under hd (n :: pre) post hb

mutual

theorem pathWhere_eq_some (n : Node) {path : Path} (h : pathWhere P n = some path) :
    (path = [] ∧ P n = true) ∨
      ∃ hd body x hs, n = loop hd body ∧ P x = true ∧ Occurs x body path hs := by
  cases n with
  | leaf l =>
    rw [pathWhere] at h
    split at h
    · next hp =>
      cases h
      exact Or.inl ⟨rfl, hp⟩
    · cases h
  | loop hd body =>
    rw [pathWhere] at h
    split at h
    · next hp =>
      cases h
      exact Or.inl ⟨rfl, hp⟩
    · obtain ⟨k, rest, x, hs, rfl, hx, ho⟩ := pathWhereAll_eq_some body h
      rw [Nat.zero_add]
      exact Or.inr ⟨hd, body, x, hs, rfl, hx, ho⟩

theorem pathWhereAll_eq_some (ns : List Node) {i : Nat} {path : Path}
    (h : pathWhereAll P i ns = some path) :
    ∃ k rest x hs, path = (i + k) :: rest ∧ P x = true ∧ Occurs x ns (k :: rest) hs := by
  cases ns with
  | nil => cases h
  | cons n ns =>
    rw [pathWhereAll] at h
    split at h
    · next rest hrest =>
      cases h
      obtain ⟨rfl, hp⟩ | ⟨hd, body, x, hs, rfl, hx, ho⟩ := pathWhere_eq_some n hrest
      · exact ⟨0, [], n, [], rfl, hp, .here [] ns⟩
      · exact ⟨0, rest, x, hd :: hs, rfl, hx, .under hd [] ns ho⟩
    · obtain ⟨k, rest, x, hs, rfl, hx, ho⟩ := pathWhereAll_eq_some ns h
      exact ⟨k + 1, rest, x, hs, by rw [Nat.add_assoc, Nat.add_comm 1], hx, ho.cons n⟩

end

mutual

theorem eq_false_of_pathWhere (n : Node) (h : pathWhere P n = none) : ∀ l ∈ n.leaves, P (leaf l) = false := by
  cases n with
  | leaf l =>
    intro l' hl
    rw [List.mem_singleton.1 hl]
    rw [pathWhere] at h
    split at h
    · cases h
    · next hp => simpa using hp
  | loop hd body =>
    rw [pathWhere] at h
    split at h
    · cases h
    · exact eq_false_of_pathWhereAll body h

theorem eq_false_of_pathWhereAll (ns : List Node) {i : Nat} (h : pathWhereAll P i ns = none) :
    ∀ l ∈ leavesAll ns, P (leaf l) = false := by
  cases ns with
  | nil => exact fun _ hl => absurd hl List.not_mem_nil
  | cons n ns =>
    rw [pathWhereAll] at h
    split at h
    · cases h
    · next hn => exact List.forall_mem_append.2 ⟨eq_false_of_pathWhere n hn, eq_false_of_pathWhereAll ns h⟩

end

theorem exists_leafPath? {ns : List Node} {c : Nat} (h : c ∈ (leavesAll ns).map Leaf.computation) :
    ∃ path, leafPath? ns c = some path := by
  obtain ⟨l, hl, rfl⟩ := List.mem_map.1 h
  refine Option.ne_none_iff_exists'.1 fun hnone => ?_
  have hfalse := eq_false_of_pathWhereAll ns hnone l hl
  simp [isLeafOf] at hfalse

theorem occurs_of_leafPath? {ns : List Node} {c : Nat} {path : Path} (h : leafPath? ns c = some path) :
    ∃ l hs, l.computation = c ∧ Occurs (leaf l) ns path hs := by
  obtain ⟨k, rest, x, hs, rfl, hx, ho⟩ := pathWhereAll_eq_some ns h
  rw [Nat.zero_add]
  cases x with
  | leaf l => exact ⟨l, hs, by simpa [isLeafOf] using hx, ho⟩
  | loop hd body => cases hx

theorem occurs_of_loopPath? {ns : List Node} {dim : String} {path : Path}
    (h : loopPath? ns dim = some path) :
    ∃ hd body hs, hd.dim = dim ∧ Occurs (loop hd body) ns path hs := by
  obtain ⟨k, rest, x, hs, rfl, hx, ho⟩ := pathWhereAll_eq_some ns h
  rw [Nat.zero_add]
  cases x with
  | leaf l => cases hx
  | loop hd body => exact ⟨hd, body, hs, by simpa [isLoopNamed] using hx, ho⟩

theorem pathWhereAll_append {pre : List Node} {i : Nat} (h : pathWhereAll P i pre = none) (ns : List Node) :
    pathWhereAll P i (pre ++ ns) = pathWhereAll P (i + pre.length) ns := by
  induction pre generalizing i with
  | nil => rfl
  | cons n pre ih =>
    rw [pathWhereAll] at h
    split at h
    · cases h
    · next hn =>
      have hlength : i + (n :: pre).length = i + 1 + pre.length := by
        rw [List.length_cons]
        omega
      rw [List.cons_append, pathWhereAll, hn, hlength]
      exact ih h

mutual

theorem pathWhere_of_notMem_dims (n : Node) {dim : String} (h : dim ∉ n.dims) :
    pathWhere (isLoopNamed dim) n = none := by
  cases n with
  | leaf l => rfl
  | loop hd body =>
    rw [dims, List.mem_cons, not_or] at h
    have hname : isLoopNamed dim (loop hd body) = false := by simpa [isLoopNamed] using Ne.symm h.1
    rw [pathWhere, hname]
    exact pathWhereAll_of_notMem_dims body h.2 0

theorem pathWhereAll_of_notMem_dims (ns : List Node) {dim : String} (h : dim ∉ dimsAll ns) (i : Nat) :
    pathWhereAll (isLoopNamed dim) i ns = none := by
  cases ns with
  | nil => rfl
  | cons n ns =>
    rw [dimsAll, List.mem_append, not_or] at h
    rw [pathWhereAll, pathWhere_of_notMem_dims n h.1]
    exact pathWhereAll_of_notMem_dims ns h.2 (i + 1)

end

theorem Occurs.pathWhereAll_eq {ns : List Node} {path : Path} {hd : Header} {body : List Node} {hs : List Header}
    (h : Occurs (loop hd body) ns path hs) (hdims : (dimsAll ns).Nodup) (i : Nat) :
    pathWhereAll (isLoopNamed hd.dim) i ns = some (path.modifyHead (i + ·)) := by
  induction h generalizing i with
  | here pre post =>
    rw [dimsAll_append, dimsAll, dims] at hdims
    have hpre : hd.dim ∉ dimsAll pre := fun hmem => (List.nodup_append.1 hdims).2.2 _ hmem _ (by simp) rfl
    rw [pathWhereAll_append (pathWhereAll_of_notMem_dims pre hpre i), pathWhereAll, pathWhere]
    simp [isLoopNamed]
  | @under outer pre post inside path hs hb ih =>
    rw [dimsAll_append, dimsAll, dims] at hdims
    obtain ⟨-, hmid, hapart⟩ := List.nodup_append.1 hdims
    obtain ⟨houter, hinside⟩ := List.nodup_cons.1 (List.nodup_append.1 hmid).1
    have hmem : hd.dim ∈ dimsAll inside := hb.dims_sublist.subset (by simp [dims])
    have hpre : hd.dim ∉ dimsAll pre := fun hbefore => hapart _ hbefore _ (by simp [hmem]) rfl
    have hname : isLoopNamed hd.dim (loop outer inside) = false := by
      simpa [isLoopNamed] using fun heq : outer.dim = hd.dim => houter (heq ▸ hmem)
    rw [pathWhereAll_append (pathWhereAll_of_notMem_dims pre hpre i), pathWhereAll, pathWhere, hname]
    obtain ⟨k, rest, rfl⟩ := List.exists_cons_of_ne_nil hb.ne_nil
    simp [ih hinside 0]

theorem Occurs.loopPath?_eq {ns : List Node} {path : Path} {hd : Header} {body : List Node} {hs : List Header}
    (h : Occurs (loop hd body) ns path hs) (hdims : (dimsAll ns).Nodup) : loopPath? ns hd.dim = some path := by
  rw [loopPath?, h.pathWhereAll_eq hdims]
  obtain ⟨k, rest, rfl⟩ := List.exists_cons_of_ne_nil h.ne_nil
  simp

theorem pathWhereAll_of_notMem_leaves {ns : List Node} {c : Nat} (h : c ∉ (leavesAll ns).map Leaf.computation)
    (i : Nat) : pathWhereAll (isLeafOf c) i ns = none := by
  refine Option.eq_none_iff_forall_ne_some.2 fun path hpath => ?_
  obtain ⟨k, rest, x, hs, -, hx, ho⟩ := pathWhereAll_eq_some ns hpath
  cases x with
  | loop hd body => cases hx
  | leaf l =>
    have hl : l.computation = c := by simpa [isLeafOf] using hx
    exact h (hl ▸ List.mem_map_of_mem (ho.leaves_subset List.mem_cons_self))

theorem Occurs.pathWhereAll_leaf {ns : List Node} {path : Path} {l : Leaf} {hs : List Header}
    (h : Occurs (leaf l) ns path hs) (hleaves : ((leavesAll ns).map Leaf.computation).Nodup) (i : Nat) :
    pathWhereAll (isLeafOf l.computation) i ns = some (path.modifyHead (i + ·)) := by
  induction h generalizing i with
  | here pre post =>
    rw [leavesAll_append, leavesAll, leaves, List.map_append] at hleaves
    have hpre : l.computation ∉ (leavesAll pre).map Leaf.computation := fun hmem =>
      (List.nodup_append.1 hleaves).2.2 _ hmem _ (by simp) rfl
    rw [pathWhereAll_append (pathWhereAll_of_notMem_leaves hpre i), pathWhereAll, pathWhere]
    simp [isLeafOf]
  | @under outer pre post inside path hs hb ih =>
    rw [leavesAll_append, leavesAll, leaves, List.map_append, List.map_append] at hleaves
    obtain ⟨-, hmid, hapart⟩ := List.nodup_append.1 hleaves
    have hmem : l.computation ∈ (leavesAll inside).map Leaf.computation :=
      List.mem_map_of_mem (hb.leaves_subset List.mem_cons_self)
    have hpre : l.computation ∉ (leavesAll pre).map Leaf.computation := fun hbefore =>
      hapart _ hbefore _ (List.mem_append_left _ hmem) rfl
    rw [pathWhereAll_append (pathWhereAll_of_notMem_leaves hpre i), pathWhereAll, pathWhere]
    obtain ⟨k, rest, rfl⟩ := List.exists_cons_of_ne_nil hb.ne_nil
    simp [isLeafOf, ih (List.nodup_append.1 hmid).1 0]

theorem Occurs.leafPath?_eq {ns : List Node} {path : Path} {l : Leaf} {hs : List Header}
    (h : Occurs (leaf l) ns path hs) (hleaves : ((leavesAll ns).map Leaf.computation).Nodup) :
    leafPath? ns l.computation = some path := by
  rw [leafPath?, h.pathWhereAll_leaf hleaves]
  obtain ⟨k, rest, rfl⟩ := List.exists_cons_of_ne_nil h.ne_nil
  simp

theorem loopAt?_eq_some {ns : List Node} {path : Path} {hd : Header} {body : List Node} :
    loopAt? ns path = some (hd, body) ↔ at? ns path = some (loop hd body) := by
  rw [loopAt?]
  split
  · next h body' hat => simp [hat]
  · next hnone =>
    constructor
    · intro h
      cases h
    · intro h
      exact absurd h (hnone hd body)

theorem Occurs.loopAt? {ns : List Node} {path : Path} {hd : Header} {body : List Node} {hs : List Header}
    (h : Occurs (loop hd body) ns path hs) : Node.loopAt? ns path = some (hd, body) :=
  loopAt?_eq_some.2 h.at?_eq

end Search

mutual

def leafStacks : Node → List (List Header × Leaf)
  | leaf l => [([], l)]
  | loop h body => (leafStacksAll body).map fun s => (h :: s.1, s.2)

def leafStacksAll : List Node → List (List Header × Leaf)
  | [] => []
  | n :: ns => n.leafStacks ++ leafStacksAll ns

end

mutual

theorem leafStacks_map_snd (n : Node) : n.leafStacks.map Prod.snd = n.leaves := by
  cases n with
  | leaf l => rfl
  | loop h body =>
    rw [leafStacks, List.map_map, leaves, ← leafStacksAll_map_snd body]
    rfl

theorem leafStacksAll_map_snd (ns : List Node) : (leafStacksAll ns).map Prod.snd = leavesAll ns := by
  cases ns with
  | nil => rfl
  | cons n ns => rw [leafStacksAll, List.map_append, leafStacks_map_snd n, leafStacksAll_map_snd ns, leavesAll]

end

theorem mem_leaves_of_stack {ns : List Node} {s : List Header × Leaf} (hs : s ∈ leafStacksAll ns) :
    s.2.computation ∈ (leavesAll ns).map Leaf.computation := by
  rw [← leafStacksAll_map_snd, List.map_map]
  exact List.mem_map_of_mem (f := Leaf.computation ∘ Prod.snd) hs

theorem leafStacksAll_append (ms ns : List Node) :
    leafStacksAll (ms ++ ns) = leafStacksAll ms ++ leafStacksAll ns := by
  induction ms with
  | nil => rfl
  | cons m ms ih => rw [List.cons_append, leafStacksAll, leafStacksAll, ih, List.append_assoc]

theorem mem_leafStacks_loop {h : Header} {body : List Node} {s : List Header × Leaf} :
    s ∈ (loop h body).leafStacks ↔ ∃ t ∈ leafStacksAll body, s = (h :: t.1, t.2) := by
  rw [leafStacks, List.mem_map]
  exact exists_congr fun t => and_congr_right fun _ => eq_comm

theorem Occurs.mem_leafStacks_append {n : Node} {ns : List Node} {path : Path} {hs : List Header}
    (h : Occurs n ns path hs) {s : List Header × Leaf} (hs' : s ∈ n.leafStacks) :
    (hs ++ s.1, s.2) ∈ leafStacksAll ns := by
  induction h with
  | here pre post =>
    rw [leafStacksAll_append, leafStacksAll]
    exact List.mem_append_right _ (List.mem_append_left _ hs')
  | under hd pre post hb ih =>
    rw [leafStacksAll_append, leafStacksAll]
    exact List.mem_append_right _ (List.mem_append_left _ (mem_leafStacks_loop.2 ⟨_, ih, rfl⟩))

theorem Occurs.mem_leafStacks {l : Leaf} {ns : List Node} {path : Path} {hs : List Header}
    (h : Occurs (leaf l) ns path hs) : (hs, l) ∈ leafStacksAll ns := by
  simpa using h.mem_leafStacks_append (List.mem_singleton_self ([], l))

theorem Removes.leafStacks_subset {n : Node} {ns ns' : List Node} {hs : List Header} (h : Removes n ns ns' hs) :
    leafStacksAll ns' ⊆ leafStacksAll ns := by
  induction h with
  | here pre post =>
    rw [leafStacksAll_append, leafStacksAll_append, leafStacksAll]
    exact append_subset_middle _ _ (List.nil_subset _)
  | under hd pre post hb ih =>
    rw [leafStacksAll_append, leafStacksAll_append, leafStacksAll, leafStacksAll]
    refine append_subset_middle _ _ fun s hs => ?_
    obtain ⟨t, ht, rfl⟩ := mem_leafStacks_loop.1 hs
    exact mem_leafStacks_loop.2 ⟨t, ih ht, rfl⟩
  | prune hd pre post hb ih =>
    rw [leafStacksAll_append, leafStacksAll_append, leafStacksAll]
    exact append_subset_middle _ _ (List.nil_subset _)

theorem mem_leafStacks_under {n : Node} {body body' pre post : List Node} {hd : Header} {hs : List Header}
    (h : ∀ t ∈ leafStacksAll body', t ∈ leafStacksAll body ∨ ∃ u ∈ n.leafStacks, t = (hs ++ u.1, u.2))
    {s : List Header × Leaf} (hs' : s ∈ leafStacksAll (pre ++ loop hd body' :: post)) :
    s ∈ leafStacksAll (pre ++ loop hd body :: post) ∨ ∃ u ∈ n.leafStacks, s = (hd :: hs ++ u.1, u.2) := by
  simp only [leafStacksAll_append, leafStacksAll, List.mem_append, mem_leafStacks_loop] at hs' ⊢
  rcases hs' with hpre | ⟨t, ht, rfl⟩ | hpost
  · exact Or.inl (Or.inl hpre)
  · rcases h t ht with ht | ⟨u, hu, rfl⟩
    · exact Or.inl (Or.inr (Or.inl ⟨t, ht, rfl⟩))
    · exact Or.inr ⟨u, hu, rfl⟩
  · exact Or.inl (Or.inr (Or.inr hpost))

theorem Inserts.mem_leafStacks {n : Node} {ns ns' : List Node} {hs : List Header} (h : Inserts n ns ns' hs)
    {s : List Header × Leaf} (hs' : s ∈ leafStacksAll ns') :
    s ∈ leafStacksAll ns ∨ ∃ t ∈ n.leafStacks, s = (hs ++ t.1, t.2) := by
  induction h generalizing s with
  | here pre post =>
    simp only [leafStacksAll_append, leafStacksAll, List.mem_append] at hs' ⊢
    rcases hs' with h | h | h
    · exact Or.inl (Or.inl h)
    · exact Or.inr ⟨s, h, rfl⟩
    · exact Or.inl (Or.inr h)
  | under hd pre post hb ih => exact mem_leafStacks_under (fun _ ht => ih ht) hs'

mutual

theorem dims_sublist_of_stack (n : Node) {s : List Header × Leaf} (hs : s ∈ n.leafStacks) :
    (s.1.map Header.dim).Sublist n.dims := by
  cases n with
  | leaf l =>
    rw [List.mem_singleton.1 hs]
    exact List.nil_sublist _
  | loop h body =>
    obtain ⟨t, ht, rfl⟩ := mem_leafStacks_loop.1 hs
    exact (dimsAll_sublist_of_stack body ht).cons_cons h.dim

theorem dimsAll_sublist_of_stack (ns : List Node) {s : List Header × Leaf} (hs : s ∈ leafStacksAll ns) :
    (s.1.map Header.dim).Sublist (dimsAll ns) := by
  cases ns with
  | nil => cases hs
  | cons n ns =>
    rcases List.mem_append.1 hs with hs | hs
    · exact (dims_sublist_of_stack n hs).trans (List.sublist_append_left _ _)
    · exact (dimsAll_sublist_of_stack ns hs).trans (List.sublist_append_right _ _)

end

mutual

theorem points_perm_leafStacks (n : Node) (env : Valuation) :
    (n.points env).Perm (n.leafStacks.flatMap fun s => pointsBelow env s.1 (leaf s.2)) := by
  cases n with
  | leaf l => simp [leafStacks, pointsBelow_nil]
  | loop h body =>
    rw [points, leafStacks, List.flatMap_map]
    simp only [pointsBelow_cons]
    refine List.Perm.trans ?_ (flatMap_comm_perm (h.values env) (leafStacksAll body) _)
    exact List.Perm.flatMap_left _ fun v _ => pointsAll_perm_leafStacks body _

theorem pointsAll_perm_leafStacks (ns : List Node) (env : Valuation) :
    (pointsAll env ns).Perm ((leafStacksAll ns).flatMap fun s => pointsBelow env s.1 (leaf s.2)) := by
  cases ns with
  | nil => exact List.Perm.refl _
  | cons n ns =>
    rw [pointsAll, leafStacksAll, List.flatMap_append]
    exact (points_perm_leafStacks n env).append (pointsAll_perm_leafStacks ns env)

end

theorem Sound.stack_unique {p : Program} {ns : List Node} (h : Sound p ns) {s t : List Header × Leaf}
    (hs : s ∈ leafStacksAll ns) (ht : t ∈ leafStacksAll ns) (hc : s.2.computation = t.2.computation) : s = t := by
  have hnodup := h.leaves
  rw [← leafStacksAll_map_snd, List.map_map] at hnodup
  exact List.inj_on_of_nodup_map hnodup hs ht hc

theorem Sound.occurs_of_stack {p : Program} {ns : List Node} (h : Sound p ns) {s : List Header × Leaf}
    (hs : s ∈ leafStacksAll ns) : ∃ path, Occurs (leaf s.2) ns path s.1 := by
  obtain ⟨path, hpath⟩ := exists_leafPath? (mem_leaves_of_stack hs)
  obtain ⟨l, ks, hl, ho⟩ := occurs_of_leafPath? hpath
  obtain rfl := h.stack_unique hs ho.mem_leafStacks hl.symm
  exact ⟨path, ho⟩

section Changes

theorem Replaces.mem_leafStacks {n n' : Node} {ns ns' : List Node} {hs : List Header} (h : Replaces n n' ns ns' hs)
    {s : List Header × Leaf} (hs' : s ∈ leafStacksAll ns') :
    s ∈ leafStacksAll ns ∨ ∃ t ∈ n'.leafStacks, s = (hs ++ t.1, t.2) := by
  induction h generalizing s with
  | here pre post =>
    simp only [leafStacksAll_append, leafStacksAll, List.mem_append] at hs' ⊢
    rcases hs' with h | h | h
    · exact Or.inl (Or.inl h)
    · exact Or.inr ⟨s, h, rfl⟩
    · exact Or.inl (Or.inr (Or.inr h))
  | under hd pre post hb ih => exact mem_leafStacks_under (fun _ ht => ih ht) hs'

theorem mem_leafStacksAll_nest {hs : List Header} {body : List Node} {s : List Header × Leaf} :
    s ∈ leafStacksAll (nest hs body) ↔ ∃ t ∈ leafStacksAll body, s = (hs ++ t.1, t.2) := by
  induction hs generalizing s with
  | nil => simp [nest]
  | cons h hs ih =>
    simp only [nest, leafStacksAll, List.append_nil, mem_leafStacks_loop, ih]
    constructor
    · rintro ⟨t, ⟨u, hu, rfl⟩, rfl⟩
      exact ⟨u, hu, rfl⟩
    · rintro ⟨u, hu, rfl⟩
      exact ⟨_, ⟨u, hu, rfl⟩, rfl⟩

variable {m : String → Affine}

mutual

theorem leafStacks_substitute (n : Node) {n' : Node} (h : n.substitute m = .ok n') {s' : List Header × Leaf}
    (hs' : s' ∈ n'.leafStacks) : ∃ s ∈ n.leafStacks, s.2.computation = s'.2.computation ∧
      List.Forall₂ (fun x x' => x.Bound m x' ∧ x'.dim = x.dim) s.1 s'.1 := by
  cases n with
  | leaf l =>
    obtain ⟨bindings, -, rfl⟩ := substitute_leaf_eq_ok.1 h
    rw [List.mem_singleton.1 hs']
    exact ⟨([], l), List.mem_cons_self, rfl, .nil⟩
  | loop hd body =>
    obtain ⟨hd', body', hbound, hdim, -, hb, rfl⟩ := substitute_loop_eq_ok h
    obtain ⟨t', ht', rfl⟩ := mem_leafStacks_loop.1 hs'
    obtain ⟨t, ht, hc, hforall⟩ := leafStacksAll_substituteAll body hb ht'
    exact ⟨_, mem_leafStacks_loop.2 ⟨t, ht, rfl⟩, hc, .cons ⟨hbound, hdim⟩ hforall⟩

theorem leafStacksAll_substituteAll (ns : List Node) {ns' : List Node} (h : substituteAll m ns = .ok ns')
    {s' : List Header × Leaf} (hs' : s' ∈ leafStacksAll ns') :
    ∃ s ∈ leafStacksAll ns, s.2.computation = s'.2.computation ∧
      List.Forall₂ (fun x x' => x.Bound m x' ∧ x'.dim = x.dim) s.1 s'.1 := by
  cases ns with
  | nil =>
    cases h
    cases hs'
  | cons n ns =>
    obtain ⟨n', rest, hn, hr, rfl⟩ := substituteAll_cons_eq_ok h
    rcases List.mem_append.1 hs' with hs' | hs'
    · obtain ⟨s, hs, hrest⟩ := leafStacks_substitute n hn hs'
      exact ⟨s, List.mem_append_left _ hs, hrest⟩
    · obtain ⟨s, hs, hrest⟩ := leafStacksAll_substituteAll ns hr hs'
      exact ⟨s, List.mem_append_right _ hs, hrest⟩

end

end Changes

end Node

theorem namedLoop_eq_ok {ns : List Node} {dim : String} {path : Path} {hd : Header} {body : List Node}
    (h : namedLoop ns dim = .ok (path, hd, body)) :
    hd.dim = dim ∧ ∃ hs, Node.Occurs (.loop hd body) ns path hs := by
  rw [namedLoop] at h
  split at h
  · cases h
  · next path' hpath =>
    obtain ⟨hd', body', hs, hdim, ho⟩ := Node.occurs_of_loopPath? hpath
    rw [ho.loopAt?] at h
    cases h
    exact ⟨hdim, hs, ho⟩

theorem namedLoop_of_occurs {ns : List Node} {path : Path} {hd : Header} {body : List Node} {hs : List Header}
    (h : Node.Occurs (.loop hd body) ns path hs) (hdims : (Node.dimsAll ns).Nodup) :
    namedLoop ns hd.dim = .ok (path, hd, body) := by
  simp only [namedLoop, h.loopPath?_eq hdims, h.loopAt?]

theorem namedLoop_bind_eq_ok {ns : List Node} {dim : String} {α : Type} {r : α}
    {f : Path × Header × List Node → Transformed α} (h : (namedLoop ns dim >>= f) = .ok r) :
    ∃ path hd body hs, hd.dim = dim ∧ Node.Occurs (.loop hd body) ns path hs ∧ f (path, hd, body) = .ok r := by
  obtain ⟨⟨path, hd, body⟩, hnamed, h⟩ := bind_eq_ok.1 h
  obtain ⟨hdim, hs, ho⟩ := namedLoop_eq_ok hnamed
  exact ⟨path, hd, body, hs, hdim, ho, h⟩

end LoopNest
