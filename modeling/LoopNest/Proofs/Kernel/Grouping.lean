import LoopNest.Proofs.Kernel.Lowering
import LoopNest.Proofs.Tree.Path

/-!
How a walk groups its instances into iterations of concurrent loops, read off the tree. The grouping depends on the
numbers of the loops and on the values around them, so a change in one place renames the activations of all loops
behind it.
-/

namespace LoopNest

abbrev Activation : Type := Nat × Env

def Iteration.move (f : Activation → Activation) (i : Iteration) : Iteration :=
  { i with loop := (f (i.loop, i.around)).1, around := (f (i.loop, i.around)).2 }

theorem Iteration.move_eq {f : Activation → Activation} {loop loop' : Nat} {around around' : Env}
    (h : f (loop, around) = (loop', around')) (dim : String) (v : Int) :
    (⟨loop, dim, around, v⟩ : Iteration).move f = ⟨loop', dim, around', v⟩ := by
  rw [move]
  simp only [h]

def Header.inside (h : Header) (number : Nat) (around : Env) (outside : List Iteration) (v : Int) : List Iteration :=
  if h.isConcurrent then outside ++ [⟨number, h.dim, around, v⟩] else outside

theorem Header.map_inside {h : Header} {number number' : Nat} {around around' : Env} {v : Int}
    {f : Iteration → Iteration} (hf : f ⟨number, h.dim, around, v⟩ = ⟨number', h.dim, around', v⟩)
    (outside : List Iteration) :
    (h.inside number around outside v).map f = h.inside number' around' (outside.map f) v := by
  rw [inside, inside]
  split
  · rw [List.map_append, List.map_singleton, hf]
  · rfl

namespace Node

mutual

def iterations (env : Valuation) (around : Env) (next : Nat) (outside : List Iteration) : Node → List (List Iteration)
  | leaf _ => [outside]
  | loop h body => (h.values env).flatMap fun v =>
      iterationsAll (Function.update env h.dim v) (v :: around) (next + 1) (h.inside next around outside v) body

def iterationsAll (env : Valuation) (around : Env) (next : Nat) (outside : List Iteration) :
    List Node → List (List Iteration)
  | [] => []
  | n :: ns => n.iterations env around next outside ++ iterationsAll env around (next + n.dims.length) outside ns

end

theorem iterationsAll_append (env : Valuation) (around : Env) (next : Nat) (outside : List Iteration)
    (ms ns : List Node) : iterationsAll env around next outside (ms ++ ns) =
      iterationsAll env around next outside ms ++ iterationsAll env around (next + (dimsAll ms).length) outside ns := by
  induction ms generalizing next with
  | nil => rfl
  | cons m ms ih =>
    rw [List.cons_append, iterationsAll, iterationsAll, ih, dimsAll, List.length_append, Nat.add_assoc,
      List.append_assoc]

section Environment

variable {p : Program}

mutual

theorem iterations_congr (n : Node) {names : List String} (h : n.Tidy p names) {env env' : Valuation}
    (he : ∀ a ∈ names, env a = env' a) (around : Env) (next : Nat) (outside : List Iteration) :
    n.iterations env around next outside = n.iterations env' around next outside := by
  cases n with
  | leaf l => rfl
  | loop hd body =>
    rw [iterations, iterations, h.1.values_congr he]
    exact List.flatMap_congr fun v _ => iterationsAll_congr body h.2 (update_congr he hd.dim v) _ _ _

theorem iterationsAll_congr (ns : List Node) {names : List String} (h : TidyAll p names ns) {env env' : Valuation}
    (he : ∀ a ∈ names, env a = env' a) (around : Env) (next : Nat) (outside : List Iteration) :
    iterationsAll env around next outside ns = iterationsAll env' around next outside ns := by
  cases ns with
  | nil => rfl
  | cons n ns =>
    rw [iterationsAll, iterationsAll, iterations_congr n h.1 he, iterationsAll_congr ns h.2 he]

end

variable {m : String → Affine}

mutual

theorem iterations_substitute (n : Node) {n' : Node} (h : n.substitute m = .ok n') (hm : ∀ w ∈ n.dims, Spares m w)
    (env : Valuation) (around : Env) (next : Nat) (outside : List Iteration) :
    n'.iterations env around next outside = n.iterations (fun a => (m a).value env) around next outside := by
  cases n with
  | leaf l =>
    obtain ⟨bindings, -, rfl⟩ := substitute_leaf_eq_ok.1 h
    rfl
  | loop hd body =>
    obtain ⟨h', body', hbound, hdim, htags, hb, rfl⟩ := substitute_loop_eq_ok h
    have hinside (v : Int) : h'.inside next around outside v = hd.inside next around outside v := by
      have hconcurrent : h'.isConcurrent = hd.isConcurrent := by rw [Header.isConcurrent, htags, Header.isConcurrent]
      rw [Header.inside, Header.inside, hconcurrent, hdim]
    rw [iterations, iterations, hbound.values, hdim]
    refine List.flatMap_congr fun v _ => ?_
    rw [iterationsAll_substituteAll body hb (fun w hw => hm w (List.mem_cons_of_mem _ hw)),
      (hm hd.dim List.mem_cons_self).update, hinside]

theorem iterationsAll_substituteAll (ns : List Node) {ns' : List Node} (h : substituteAll m ns = .ok ns')
    (hm : ∀ w ∈ dimsAll ns, Spares m w) (env : Valuation) (around : Env) (next : Nat) (outside : List Iteration) :
    iterationsAll env around next outside ns' = iterationsAll (fun a => (m a).value env) around next outside ns := by
  cases ns with
  | nil =>
    cases h
    rfl
  | cons n ns =>
    obtain ⟨n', rest, hn, hr, rfl⟩ := substituteAll_cons_eq_ok h
    rw [iterationsAll, iterationsAll, iterations_substitute n hn (fun w hw => hm w (List.mem_append_left _ hw)),
      iterationsAll_substituteAll ns hr (fun w hw => hm w (List.mem_append_right _ hw)), dims_substitute n hn]

end

end Environment

section Renaming

variable {f : Iteration → Iteration}

mutual

theorem iterations_map (n : Node) {around around' : Env} {next next' : Nat}
    (hf : ∀ k < n.dims.length, ∀ dim inner v,
      f ⟨next + k, dim, inner ++ around, v⟩ = ⟨next' + k, dim, inner ++ around', v⟩)
    (env : Valuation) (outside : List Iteration) : n.iterations env around' next' (outside.map f) =
      (n.iterations env around next outside).map (List.map f) := by
  cases n with
  | leaf l => rfl
  | loop hd body =>
    rw [iterations, iterations, List.map_flatMap]
    refine List.flatMap_congr fun v _ => ?_
    rw [dims, List.length_cons] at hf
    have hhead : f ⟨next, hd.dim, around, v⟩ = ⟨next', hd.dim, around', v⟩ := hf 0 (Nat.succ_pos _) hd.dim [] v
    rw [← Header.map_inside hhead]
    refine iterationsAll_map body (fun k hk dim inner w => ?_) _ _
    have hinner := hf (k + 1) (Nat.succ_lt_succ hk) dim (inner ++ [v]) w
    rw [List.append_assoc, List.append_assoc, List.singleton_append, List.singleton_append] at hinner
    rw [Nat.add_assoc, Nat.add_assoc, Nat.add_comm 1 k]
    exact hinner

theorem iterationsAll_map (ns : List Node) {around around' : Env} {next next' : Nat}
    (hf : ∀ k < (dimsAll ns).length, ∀ dim inner v,
      f ⟨next + k, dim, inner ++ around, v⟩ = ⟨next' + k, dim, inner ++ around', v⟩)
    (env : Valuation) (outside : List Iteration) : iterationsAll env around' next' (outside.map f) ns =
      (iterationsAll env around next outside ns).map (List.map f) := by
  cases ns with
  | nil => rfl
  | cons n ns =>
    rw [dimsAll, List.length_append] at hf
    have hrest : ∀ k < (dimsAll ns).length, ∀ dim inner v,
        f ⟨next + n.dims.length + k, dim, inner ++ around, v⟩ =
          ⟨next' + n.dims.length + k, dim, inner ++ around', v⟩ := by
      intro k hk dim inner v
      rw [Nat.add_assoc, Nat.add_assoc]
      exact hf _ (Nat.add_lt_add_left hk _) dim inner v
    rw [iterationsAll, iterationsAll, List.map_append,
      iterations_map n (fun k hk => hf k (Nat.lt_add_right _ hk)), iterationsAll_map ns hrest]

end

/-- What is renamed where a node changes: loops in front of it keep their numbers and those behind it are moved on. -/
structure Renames (number count shift : Nat) (f : Iteration → Iteration) : Prop where
  before : ∀ i, i.loop < number → f i = i
  behind : ∀ i, number + count ≤ i.loop → f i = { i with loop := i.loop + shift }

section Renames

variable {number count shift : Nat} (hf : Renames number count shift f) (env : Valuation) (around : Env)
  {outside : List Iteration} (houtside : outside.map f = outside)
include hf houtside

theorem Renames.iterationsAll_before (ns : List Node) {next : Nat} (hend : next + (dimsAll ns).length ≤ number) :
    iterationsAll env around next outside ns = (iterationsAll env around next outside ns).map (List.map f) := by
  have hsame : ∀ k < (dimsAll ns).length, ∀ dim inner v,
      f ⟨next + k, dim, inner ++ around, v⟩ = ⟨next + k, dim, inner ++ around, v⟩ :=
    fun k hk dim inner v => hf.before _ (by simp only; omega)
  have hmap := iterationsAll_map ns hsame env outside
  rwa [houtside] at hmap

theorem Renames.iterationsAll_behind (ns : List Node) {next : Nat} (hstart : number + count ≤ next) :
    iterationsAll env around (next + shift) outside ns =
      (iterationsAll env around next outside ns).map (List.map f) := by
  have hmoved : ∀ k < (dimsAll ns).length, ∀ dim inner v,
      f ⟨next + k, dim, inner ++ around, v⟩ = ⟨next + shift + k, dim, inner ++ around, v⟩ := by
    intro k _ dim inner v
    rw [hf.behind _ (by simp only; omega), Nat.add_right_comm]
  have hmap := iterationsAll_map ns hmoved env outside
  rwa [houtside] at hmap

end Renames

theorem Replaces.iterations_map {n n' : Node} {ns ns' : List Node} {hs : List Header} (h : Replaces n n' ns ns' hs)
    {shift : Nat} (hshift : n'.dims.length = n.dims.length + shift) (next : Nat) :
    ∃ number, next ≤ number ∧ number + n.dims.length ≤ next + (dimsAll ns).length ∧
      (dimsAll ns').length = (dimsAll ns).length + shift ∧
      ∀ f, Renames number n.dims.length shift f →
        ∀ depth, (∀ env around outside, around.length = depth + hs.length → outside.map f = outside →
          n'.iterations env around number outside = (n.iterations env around number outside).map (List.map f)) →
        ∀ env around outside, around.length = depth → outside.map f = outside →
          iterationsAll env around next outside ns' = (iterationsAll env around next outside ns).map (List.map f) := by
  induction h generalizing next with
  -- nodes in front of the change keep their activations, and those behind it are numbered from `shift` later on
  | here pre post =>
    refine ⟨next + (dimsAll pre).length, Nat.le_add_right _ _, ?_, ?_, ?_⟩
    · simp only [dimsAll_append, dimsAll, List.length_append]
      omega
    · simp only [dimsAll_append, dimsAll, List.length_append, hshift]
      omega
    intro f hf depth hnode env around outside hdepth houtside
    rw [iterationsAll_append, iterationsAll_append, iterationsAll, iterationsAll, List.map_append, List.map_append,
      hnode env around outside hdepth houtside, ← hf.iterationsAll_before env around houtside pre (Nat.le_refl _),
      hshift, ← Nat.add_assoc, hf.iterationsAll_behind env around houtside post (Nat.le_refl _)]
  | @under hd pre post body body' hs hb ih =>
    obtain ⟨number, hle, hend, hlength, hbody⟩ := ih (next + (dimsAll pre).length + 1)
    refine ⟨number, by omega, ?_, ?_, ?_⟩
    · simp only [dimsAll_append, dimsAll, dims, List.length_append, List.length_cons]
      omega
    · simp only [dimsAll_append, dimsAll, dims, List.length_append, List.length_cons, hlength]
      omega
    intro f hf depth hnode env around outside hdepth houtside
    -- the loop around the change stands in front of it, so its own activation keeps its name
    have hloop : (loop hd body').iterations env around (next + (dimsAll pre).length) outside =
        ((loop hd body).iterations env around (next + (dimsAll pre).length) outside).map (List.map f) := by
      rw [iterations, iterations, List.map_flatMap]
      refine List.flatMap_congr fun v _ => ?_
      have hhead : f ⟨next + (dimsAll pre).length, hd.dim, around, v⟩ =
          ⟨next + (dimsAll pre).length, hd.dim, around, v⟩ := hf.before _ (by simp only; omega)
      have hinside := Header.map_inside hhead outside
      rw [houtside] at hinside
      refine hbody f hf (depth + 1) (fun env around outside hlen => hnode env around outside ?_) _ _ _ ?_ hinside
      · rw [List.length_cons]
        omega
      · rw [List.length_cons, hdepth]
    have hdims : (loop hd body').dims.length = (loop hd body).dims.length + shift := by
      simp only [dims, List.length_cons, hlength]
      omega
    have hstart : number + n.dims.length ≤ next + (dimsAll pre).length + (loop hd body).dims.length := by
      simp only [dims, List.length_cons]
      omega
    rw [iterationsAll_append, iterationsAll_append, iterationsAll, iterationsAll, List.map_append, List.map_append,
      hloop, ← hf.iterationsAll_before env around houtside pre (by omega), hdims, ← Nat.add_assoc,
      hf.iterationsAll_behind env around houtside post hstart]

end Renaming

end Node

namespace Numbering

variable {p : Program}

mutual

theorem next_of_node (n : LoopNest.Node) {scope : Scope} {next next' : Nat} {k : Kernel.Node}
    (hk : node p scope next n = .ok (k, next')) : next' = next + n.dims.length := by
  cases n with
  | leaf l =>
    obtain ⟨st, -, -, rfl⟩ := node_leaf_eq_ok hk
    rfl
  | loop h body =>
    obtain ⟨r, ks, -, hbody, -⟩ := node_loop_eq_ok hk
    rw [next_of_nodes body hbody, Node.dims, List.length_cons]
    omega

theorem next_of_nodes (ns : List LoopNest.Node) {scope : Scope} {next next' : Nat} {ks : List Kernel.Node}
    (hk : nodes p scope next ns = .ok (ks, next')) : next' = next + (Node.dimsAll ns).length := by
  cases ns with
  | nil =>
    cases hk
    rfl
  | cons n ns =>
    obtain ⟨k, mid, rest, hn, hns, -⟩ := nodes_cons_eq_ok hk
    rw [next_of_nodes ns hns, next_of_node n hn, Node.dimsAll, List.length_append, Nat.add_assoc]

end

mutual

theorem iterations_of_node (n : LoopNest.Node) {scope : Scope} {next next' : Nat} {k : Kernel.Node}
    (hk : node p scope next n = .ok (k, next')) {env : Env} (hlength : scope.length = env.length)
    (outside : List Iteration) : (Kernel.instancesNode env outside k).map Instance.concurrent =
      n.iterations (valuation scope env) env next outside := by
  cases n with
  | leaf l =>
    obtain ⟨st, -, rfl, -⟩ := node_leaf_eq_ok hk
    rfl
  | loop h body =>
    obtain ⟨r, ks, hr, hbody, rfl⟩ := node_loop_eq_ok hk
    rw [Kernel.instancesNode, Node.iterations, List.map_flatMap, values_of_range hlength hr]
    refine List.flatMap_congr fun v _ => ?_
    have hinside : r.inside env outside v = h.inside next env outside v := by
      rw [Range.inside, Header.inside, hr.concurrent, hr.number, hr.dim]
    rw [hinside]
    exact iterations_of_nodes body hbody (by simp [hlength]) _

theorem iterations_of_nodes (ns : List LoopNest.Node) {scope : Scope} {next next' : Nat} {ks : List Kernel.Node}
    (hk : nodes p scope next ns = .ok (ks, next')) {env : Env} (hlength : scope.length = env.length)
    (outside : List Iteration) : (Kernel.instancesNodes env outside ks).map Instance.concurrent =
      Node.iterationsAll (valuation scope env) env next outside ns := by
  cases ns with
  | nil =>
    cases hk
    rfl
  | cons n ns =>
    obtain ⟨k, mid, rest, hn, hns, rfl⟩ := nodes_cons_eq_ok hk
    rw [Kernel.instancesNodes, Node.iterationsAll, List.map_append, iterations_of_node n hn hlength,
      iterations_of_nodes ns hns hlength, next_of_node n hn]

end

end Numbering

theorem Kernel.iterations_of_tree {p : Program} {roots : List LoopNest.Node} {k : Kernel}
    (hk : Kernel.ofTree p roots = .ok k) :
    k.instances.map Instance.concurrent = Node.iterationsAll outermost [] 0 [] roots := by
  obtain ⟨⟨body, loops⟩, hbody, hk⟩ := bind_eq_ok.1 hk
  cases hk
  exact Numbering.iterations_of_nodes roots hbody rfl []

theorem Kernel.iterations_of_visits {p : Program} {roots : List LoopNest.Node} {k : Kernel}
    (hk : Kernel.ofTree p roots = .ok k) {vs : List Visit} (hv : k.visits = .ok vs) :
    vs.map Visit.concurrent = Node.iterationsAll outermost [] 0 [] roots := by
  obtain ⟨t, ht, hv⟩ := bind_eq_ok.1 hv
  rw [Instance.concurrent_of_visits hv, trace_eq ht, iterations_of_tree hk]

end LoopNest
