import LoopNest.Proofs.Catalogue.Programs
import LoopNest.Proofs.Execution.Tensors
import LoopNest.Proofs.Nest.Fusion
import LoopNest.Proofs.Tree.Initial

namespace LoopNest

theorem Affine.value_shifted (env : Valuation) (name : String) (k : Int) :
    (⟨[⟨1, name⟩], k⟩ : Affine).value env = env name + k := by
  simp [value, termsValue, Int.add_comm]

namespace Program

namespace Catalogue

open Node

def counter (dim : String) (upper : Affine) : Header := ⟨dim, .ofInt 0, upper, none, {}⟩

def nestOf (hs : List Header) (c : Nat) : List Node := nest hs [.leaf ⟨c, hs.map fun h => .var h.dim⟩]

def squareNest (i j : String) (rows cols c : Nat) : List Node :=
  nestOf [counter i (.ofInt rows), counter j (.ofInt cols)] c

def cubeNest (i j k : String) (n c : Nat) : List Node :=
  nestOf [counter i (.ofInt n), counter j (.ofInt n), counter k (.ofInt n)] c

def squarePoints (rows cols c : Nat) : List InstanceId :=
  (List.range rows).flatMap fun (i : Nat) => (List.range cols).map fun (j : Nat) => (c, [(i : Int), (j : Int)])

def cubePoints (n c : Nat) : List InstanceId :=
  (List.range n).flatMap fun (i : Nat) => (List.range n).flatMap fun (j : Nat) =>
    (List.range n).map fun (k : Nat) => (c, [(i : Int), (j : Int), (k : Int)])

def rowPoints (i : Nat) : List InstanceId :=
  ((List.range i).flatMap fun (j : Nat) =>
    ((List.range j).map fun (k : Nat) => (1, [(i : Int), (j : Int), (k : Int)])) ++ [(2, [(i : Int), (j : Int)])]) ++
  ((List.range i).map fun (k : Nat) => (3, [(i : Int), (k : Int)])) ++ [(4, [(i : Int)])]

section Points

variable {dim : String} {upper : Affine} {env : Valuation}

theorem values_counter :
    (counter dim upper).values env = (List.range (upper.value env).toNat).map fun (k : Nat) => (k : Int) := by
  simp [counter, Header.values, Header.top, Affine.value_ofInt, valuesFrom]

theorem pointsAll_counter (body ns : List Node) :
    pointsAll env (.loop (counter dim upper) body :: ns) =
      ((List.range (upper.value env).toNat).flatMap fun (k : Nat) => pointsAll (Function.update env dim k) body) ++
        pointsAll env ns := by
  rw [pointsAll, Node.points, values_counter, List.flatMap_map]
  rfl

theorem pointsAll_leaf (env : Valuation) (l : Leaf) (ns : List Node) : pointsAll env (.leaf l :: ns) =
    (l.computation, l.bindings.map fun f => f.value env) :: pointsAll env ns := rfl

theorem pointsAll_squareNest {i j : String} (hij : i ≠ j) (rows cols c : Nat) (env : Valuation) :
    pointsAll env (squareNest i j rows cols c) = squarePoints rows cols c := by
  simp only [squareNest, nestOf, nest, pointsAll_counter, pointsAll_leaf, Affine.value_ofInt, Int.toNat_natCast,
    squarePoints, List.map_eq_flatMap]
  simp [counter, pointsAll, Affine.value_var, Function.update_of_ne hij]

theorem pointsAll_cubeNest {i j k : String} (hij : i ≠ j) (hik : i ≠ k) (hjk : j ≠ k) (n c : Nat) (env : Valuation) :
    pointsAll env (cubeNest i j k n c) = cubePoints n c := by
  simp only [cubeNest, nestOf, nest, pointsAll_counter, pointsAll_leaf, Affine.value_ofInt, Int.toNat_natCast,
    cubePoints, List.map_eq_flatMap]
  simp [counter, pointsAll, Affine.value_var, Function.update_of_ne hij, Function.update_of_ne hik,
    Function.update_of_ne hjk]

theorem forall_squarePoints {rows cols c : Nat} {P : InstanceId → Prop} :
    (∀ id ∈ squarePoints rows cols c, P id) ↔ ∀ i < rows, ∀ j < cols, P (c, [(i : Int), (j : Int)]) := by
  simp only [squarePoints, List.forall_mem_flatMap, List.forall_mem_map, List.mem_range]

theorem forall_cubePoints {n c : Nat} {P : InstanceId → Prop} :
    (∀ id ∈ cubePoints n c, P id) ↔ ∀ i < n, ∀ j < n, ∀ k < n, P (c, [(i : Int), (j : Int), (k : Int)]) := by
  simp only [cubePoints, List.forall_mem_flatMap, List.forall_mem_map, List.mem_range]

end Points

section Limits

def Counts (bound : Nat) (h : Header) : Prop :=
  ∃ dim, (∃ n : Nat, n ≤ bound ∧ h = counter dim (.ofInt n)) ∨ ∃ a, h = counter dim (.var a)

mutual

theorem light_of_counts {bound : Nat} (hbound : 0 < bound) (hword : bound * bound < 9223372036854775808) (n : Node)
    {env : Valuation} (henv : ∀ a, 0 ≤ env a ∧ env a ≤ bound) (hn : ∀ h ∈ n.headers, Counts bound h) :
    n.Light bound env := by
  cases n with
  | leaf l => trivial
  | loop h body =>
    obtain ⟨hh, hbody⟩ := List.forall_mem_cons.1 hn
    have hvalues : ∀ v ∈ h.values env, 0 ≤ v ∧ v ≤ bound := by
      obtain ⟨dim, ⟨m, hm, rfl⟩ | ⟨a, rfl⟩⟩ := hh
      · rw [values_counter, List.forall_mem_map, Affine.value_ofInt]
        intro k hk
        have hlt := List.mem_range.1 hk
        omega
      · rw [values_counter, List.forall_mem_map, Affine.value_var]
        intro k hk
        have hlt := List.mem_range.1 hk
        have ha := henv a
        omega
    constructor
    · have hone : 1 * bound ≤ bound * bound := Nat.mul_le_mul_right _ hbound
      obtain ⟨dim, ⟨m, hm, rfl⟩ | ⟨a, rfl⟩⟩ := hh
      · have hsize : m * bound ≤ bound * bound := Nat.mul_le_mul_right _ hm
        simp [Header.limits, counter, Affine.weight, Affine.ofInt, Affine.termsWeight]
        omega
      · simp [Header.limits, counter, Affine.weight, Affine.ofInt, Affine.var, Affine.termsWeight]
        omega
    · intro v hv
      obtain ⟨hnonneg, hle⟩ := hvalues v hv
      refine ⟨by omega, lightAll_of_counts hbound hword body (fun a => ?_) hbody⟩
      rw [Function.update_apply]
      split
      · exact ⟨hnonneg, hle⟩
      · exact henv a

theorem lightAll_of_counts {bound : Nat} (hbound : 0 < bound) (hword : bound * bound < 9223372036854775808)
    (ns : List Node) {env : Valuation} (henv : ∀ a, 0 ≤ env a ∧ env a ≤ bound)
    (hns : ∀ h ∈ headersAll ns, Counts bound h) : LightAll bound env ns := by
  cases ns with
  | nil => trivial
  | cons n ns =>
    obtain ⟨hn, hns⟩ := List.forall_mem_append.1 hns
    exact ⟨light_of_counts hbound hword n henv hn, lightAll_of_counts hbound hword ns henv hns⟩

end

end Limits

end Catalogue

end Program

namespace Initial

open Program.Catalogue

theorem placeAll_cons {s s' : State} {i : Nat} {c : Computation} (h : place s i c = .ok s') (cs : List Computation) :
    placeAll s i (c :: cs) = placeAll s' (i + 1) cs := by
  rw [placeAll, h]
  rfl

theorem place_eq {s : State} {index : Nat} {c : Computation} (path : Path) (names : List String) (fresh : Renaming)
    (hshared : sharedLoops s.roots c = (path, names))
    (hfresh : freshNames s.taken (c.domain.drop names.length) = fresh) {node : Node}
    (hwrap : wrap (c.iterators.zip names ++ fresh)
      (.leaf ⟨index, c.iterators.map fun i => .var (Renaming.apply (c.iterators.zip names ++ fresh) i)⟩)
      (c.domain.drop names.length) = .ok node) :
    place s index c = .ok ⟨Node.modifyChildren (· ++ [node]) path s.roots, fresh.map Prod.snd ++ s.taken⟩ := by
  simp only [place, hshared, hfresh, hwrap, ok_bind]
  rfl

section Nests

variable {taken : List String} {i j k : String} (hi : Name.fresh "i" taken = i) (hj : Name.fresh "j" (i :: taken) = j)
include hi hj

theorem place_square (roots : List Node) (rows cols index : Nat) (name : String) (expr : Expr) (store : Access) :
    place ⟨roots, taken⟩ index ⟨name, [upTo "i" (.ofInt rows), upTo "j" (.ofInt cols)], expr, store, none⟩ =
      .ok ⟨roots ++ squareNest i j rows cols index, [i, j] ++ taken⟩ := by
  refine place_eq [] [] [("i", i), ("j", j)] rfl ?_ rfl
  simp only [upTo, List.length_nil, List.drop_zero, freshNames, hi, hj]

theorem place_cube (hk : Name.fresh "k" (j :: i :: taken) = k) (roots : List Node) (n index : Nat) (name : String)
    (expr : Expr) (store : Access) :
    place ⟨roots, taken⟩ index
      ⟨name, [upTo "i" (.ofInt n), upTo "j" (.ofInt n), upTo "k" (.ofInt n)], expr, store, none⟩ =
        .ok ⟨roots ++ cubeNest i j k n index, [i, j, k] ++ taken⟩ := by
  refine place_eq [] [] [("i", i), ("j", j), ("k", k)] rfl ?_ rfl
  simp only [upTo, List.length_nil, List.drop_zero, freshNames, hi, hj, hk]

end Nests

end Initial

namespace Program

open Catalogue Initial

def matmulTree (n : Nat) : List Node := squareNest "i" "j" n n 0 ++ cubeNest "i_1" "j_1" "k" n 1

def twoMatmulTree (n : Nat) : List Node :=
  matmulTree n ++ squareNest "i_2" "j_2" n n 2 ++ cubeNest "i_3" "j_3" "k_1" n 3

def blurTree (n : Nat) : List Node := squareNest "i" "j" (n + 2) n 0 ++ squareNest "i_1" "j_1" n n 1

def choleskyTree (n : Nat) : List Node :=
  squareNest "i" "j" n n 0 ++
    [.loop (counter "i_1" (.ofInt n))
      [.loop (counter "j_1" (.var "i_1"))
        [.loop (counter "k" (.var "j_1")) [.leaf ⟨1, [.var "i_1", .var "j_1", .var "k"]⟩],
          .leaf ⟨2, [.var "i_1", .var "j_1"]⟩],
        .loop (counter "k_1" (.var "i_1")) [.leaf ⟨3, [.var "i_1", .var "k_1"]⟩],
        .leaf ⟨4, [.var "i_1"]⟩]]

theorem nesting_eq {p : Program} {s : Initial.State} (h : placeAll {} 0 p.computations = .ok s) :
    p.nesting = .ok s.roots := by
  rw [nesting, h]
  rfl

theorem nesting_matmul (n : Nat) : (matmul n).nesting = .ok (matmulTree n) := by
  apply nesting_eq (s := ⟨matmulTree n, ["i_1", "j_1", "k", "i", "j"]⟩)
  rw [matmul, clear, placeAll_cons (place_square (i := "i") (j := "j") _ _ _ _ _ _ _ _ _), accumulate,
    placeAll_cons (place_cube (i := "i_1") (j := "j_1") (k := "k") _ _ _ _ _ _ _ _ _)]
  · rfl
  all_goals decide +kernel

theorem nesting_twoMatmul (n : Nat) : (twoMatmul n).nesting = .ok (twoMatmulTree n) := by
  apply nesting_eq (s := ⟨twoMatmulTree n, ["i_3", "j_3", "k_1", "i_2", "j_2", "i_1", "j_1", "k", "i", "j"]⟩)
  rw [twoMatmul, clear, placeAll_cons (place_square (i := "i") (j := "j") _ _ _ _ _ _ _ _ _), accumulate,
    placeAll_cons (place_cube (i := "i_1") (j := "j_1") (k := "k") _ _ _ _ _ _ _ _ _), clear,
    placeAll_cons (place_square (i := "i_2") (j := "j_2") _ _ _ _ _ _ _ _ _), accumulate,
    placeAll_cons (place_cube (i := "i_3") (j := "j_3") (k := "k_1") _ _ _ _ _ _ _ _ _)]
  · rfl
  all_goals decide +kernel

theorem nesting_blur (n : Nat) : (blur n).nesting = .ok (blurTree n) := by
  apply nesting_eq (s := ⟨blurTree n, ["i_1", "j_1", "i", "j"]⟩)
  rw [blur, placeAll_cons (place_square (i := "i") (j := "j") _ _ _ _ _ _ _ _ _),
    placeAll_cons (place_square (i := "i_1") (j := "j_1") _ _ _ _ _ _ _ _ _)]
  · rfl
  all_goals decide +kernel

theorem nesting_cholesky (n : Nat) : (cholesky n).nesting = .ok (choleskyTree n) := by
  have hi : Name.fresh "i" ["i", "j"] = "i_1" := by decide +kernel
  have hj : Name.fresh "j" ["i_1", "i", "j"] = "j_1" := by decide +kernel
  have hk : Name.fresh "k" ["j_1", "i_1", "i", "j"] = "k" := by decide +kernel
  have hk' : Name.fresh "k" ["i_1", "j_1", "k", "i", "j"] = "k_1" := by decide +kernel
  apply nesting_eq (s := ⟨choleskyTree n, ["k_1", "i_1", "j_1", "k", "i", "j"]⟩)
  rw [cholesky, placeAll_cons (place_square (i := "i") (j := "j") rfl rfl _ _ _ _ _ _ _)]
  refine (placeAll_cons (place_eq [] [] [("i", "i_1"), ("j", "j_1"), ("k", "k")]
    rfl ?_ rfl) _).trans ?_
  · simp [upTo, freshNames, hi, hj, hk]
  refine (placeAll_cons (place_eq [1, 0] ["i_1", "j_1"] [] rfl rfl rfl) _).trans ?_
  refine (placeAll_cons (place_eq [1] ["i_1"] [("k", "k_1")] rfl ?_ rfl) _).trans ?_
  · simp [upTo, freshNames, hk']
  exact placeAll_cons (place_eq [1] ["i_1"] [] rfl rfl rfl) _

section Points

open Node

variable (n : Nat) (env : Valuation)

theorem pointsAll_matmulTree : pointsAll env (matmulTree n) = squarePoints n n 0 ++ cubePoints n 1 := by
  rw [matmulTree, pointsAll_append, pointsAll_squareNest (by decide),
    pointsAll_cubeNest (by decide) (by decide) (by decide)]

theorem pointsAll_twoMatmulTree : pointsAll env (twoMatmulTree n) =
    squarePoints n n 0 ++ cubePoints n 1 ++ squarePoints n n 2 ++ cubePoints n 3 := by
  rw [twoMatmulTree, pointsAll_append, pointsAll_append, pointsAll_matmulTree, pointsAll_squareNest (by decide),
    pointsAll_cubeNest (by decide) (by decide) (by decide)]

theorem pointsAll_blurTree : pointsAll env (blurTree n) = squarePoints (n + 2) n 0 ++ squarePoints n n 1 := by
  rw [blurTree, pointsAll_append, pointsAll_squareNest (by decide), pointsAll_squareNest (by decide)]

theorem pointsAll_choleskyTree :
    pointsAll env (choleskyTree n) = squarePoints n n 0 ++ (List.range n).flatMap rowPoints := by
  rw [choleskyTree, pointsAll_append, pointsAll_squareNest (by decide)]
  simp only [pointsAll_counter, pointsAll_leaf, Affine.value_ofInt, Int.toNat_natCast]
  have hrows : rowPoints = fun i => rowPoints i := rfl
  simp [hrows, pointsAll, rowPoints, Affine.value_var, Function.update_of_ne, List.map_eq_flatMap]

end Points

section Runs

variable {p : Program} {n : Nat}

theorem insideAt_of_values {a : Access} {env : Valuation} {buffer : Buffer} (hb : p.buffers[a.buffer]? = some buffer)
    {rows cols : Nat} (hshape : buffer.shape = [rows, cols]) {f g : Affine} (hindices : a.indices = [f, g]) {i j : Nat}
    (hf : f.value env = i) (hg : g.value env = j) (hi : i < rows) (hj : j < cols) : a.InsideAt p env := by
  refine ⟨buffer, hb, ?_⟩
  rw [Access.entryAt, hindices, hshape, List.map_cons, List.map_singleton, hf, hg]
  exact .cons ⟨Int.natCast_nonneg _, Int.ofNat_lt.2 hi⟩ (.cons ⟨Int.natCast_nonneg _, Int.ofNat_lt.2 hj⟩ .nil)

theorem insideAt_entry {b rows cols : Nat} {buffer : Buffer} (hb : p.buffers[b]? = some buffer)
    (hshape : buffer.shape = [rows, cols]) {env : Valuation} {s t : String} {i j : Nat} (hs : env s = i)
    (ht : env t = j) (hi : i < rows) (hj : j < cols) : (entry b s t).InsideAt p env :=
  insideAt_of_values hb hshape rfl ((Affine.value_var s env).trans hs) ((Affine.value_var t env).trans ht) hi hj

theorem runnable_of_inside {d : Description} (hp : d.build = .ok p) {roots : List Node}
    (hroots : p.nesting = .ok roots) (hn : Description.Fits n)
    (hleaves : ∀ l ∈ Node.leavesAll roots, l.weight = 1)
    (hforms : ∀ f ∈ p.computations.flatMap Computation.forms, f.weight ≤ 3)
    (hcounts : ∀ h ∈ Node.headersAll roots, Counts n h)
    (hinside : ∀ id ∈ Node.pointsAll outermost roots, ∀ c, p.computations[id.1]? = some c → c.StaysInside p id.2) :
    Runnable p roots := by
  have hvolume := hn.volume
  have hword := hn.word
  unfold Decimal.word32Max at hword
  refine ⟨(sound_of_nesting (Description.wellFormed_of_build hp) hroots).1.tidy.scoped, ⟨n, hn.positive, ?_, ?_⟩,
    hinside⟩
  · intro l hl
    constructor
    · rw [hleaves l hl]
      omega
    · intro c hc f hf
      have hweight := hforms f (List.mem_flatMap_of_mem (List.mem_of_getElem? hc) hf)
      rw [hleaves l hl, Nat.one_mul]
      calc f.weight * n ≤ 3 * n := Nat.mul_le_mul_right n hweight
        _ < 9223372036854775808 := by omega
  · exact lightAll_of_counts hn.positive (by omega) roots (fun _ => ⟨Int.le_refl 0, Int.natCast_nonneg n⟩) hcounts

theorem counts_size (dim : String) {m bound : Nat} (h : m ≤ bound) : Counts bound (counter dim (.ofInt m)) :=
  ⟨dim, .inl ⟨m, h, rfl⟩⟩

theorem counts_square {i j : String} {rows cols bound : Nat} (hrows : rows ≤ bound) (hcols : cols ≤ bound) (c : Nat) :
    ∀ h ∈ Node.headersAll (squareNest i j rows cols c), Counts bound h := by
  refine List.forall_mem_cons.2 ⟨counts_size i hrows, List.forall_mem_cons.2 ⟨counts_size j hcols, ?_⟩⟩
  exact fun h hh => absurd hh List.not_mem_nil

theorem counts_cube (i j k : String) (n c : Nat) : ∀ h ∈ Node.headersAll (cubeNest i j k n c), Counts n h := by
  have hside (dim : String) : Counts n (counter dim (.ofInt n)) := counts_size dim (Nat.le_refl n)
  refine List.forall_mem_cons.2 ⟨hside i, List.forall_mem_cons.2 ⟨hside j, List.forall_mem_cons.2 ⟨hside k, ?_⟩⟩⟩
  exact fun h hh => absurd hh List.not_mem_nil

section Squares

variable {a b c : Nat} {nameA nameB nameC : String} {roleA roleB roleC : BufferRole} {i j k : Nat}
  (hc : p.buffers[c]? = some (square n nameC roleC)) (hi : i < n) (hj : j < n)
include hc hi hj

theorem staysInside_clear (name : String) : (clear n name c).StaysInside p [(i : Int), (j : Int)] := by
  intro a ha
  obtain rfl : a = entry c "i" "j" := List.mem_singleton.1 ha
  refine insideAt_entry hc rfl ?_ ?_ hi hj
  · rfl
  · rfl

theorem staysInside_accumulate (ha : p.buffers[a]? = some (square n nameA roleA))
    (hb : p.buffers[b]? = some (square n nameB roleB)) (hk : k < n) (name : String) :
    (accumulate n name c a b).StaysInside p [(i : Int), (j : Int), (k : Int)] := by
  have hwritten : (entry c "i" "j").InsideAt p (pointEnv ["i", "j", "k"] [(i : Int), (j : Int), (k : Int)]) :=
    insideAt_entry (i := i) (j := j) hc rfl rfl rfl hi hj
  refine List.forall_mem_cons.2 ⟨hwritten, List.forall_mem_cons.2 ⟨hwritten, List.forall_mem_cons.2 ⟨?_,
    List.forall_mem_singleton.2 ?_⟩⟩⟩
  · exact insideAt_entry ha rfl (s := "i") (t := "k") rfl rfl hi hk
  · exact insideAt_entry hb rfl (s := "k") (t := "j") rfl rfl hk hj

end Squares

theorem staysInside_product {a b c q r : Nat} {name name' nameA nameB nameC : String}
    {roleA roleB roleC : BufferRole} (hq : p.computations[q]? = some (clear n name c))
    (hr : p.computations[r]? = some (accumulate n name' c a b)) (ha : p.buffers[a]? = some (square n nameA roleA))
    (hb : p.buffers[b]? = some (square n nameB roleB)) (hc : p.buffers[c]? = some (square n nameC roleC)) :
    ∀ id ∈ squarePoints n n q ++ cubePoints n r, ∀ d, p.computations[id.1]? = some d → d.StaysInside p id.2 := by
  rw [List.forall_mem_append, forall_squarePoints, forall_cubePoints]
  constructor
  · intro i hi j hj d hd
    cases hd.symm.trans hq
    exact staysInside_clear hc hi hj name
  · intro i hi j hj k hk d hd
    cases hd.symm.trans hr
    exact staysInside_accumulate hc hi hj ha hb hk name'

theorem runnable_matmul (hn : Description.Fits n) : Runnable (matmul n) (matmulTree n) := by
  refine runnable_of_inside (Description.build_matmul hn) (nesting_matmul n) hn ?_ ?_ ?_ ?_
  -- The leaves and the index forms are the same for every size.
  · show ∀ l ∈ Node.leavesAll (matmulTree 0), l.weight = 1
    decide
  · show ∀ f ∈ (matmul 0).computations.flatMap Computation.forms, f.weight ≤ 3
    decide
  · rw [matmulTree, Node.headersAll_append, List.forall_mem_append]
    exact ⟨counts_square (Nat.le_refl n) (Nat.le_refl n) 0, counts_cube _ _ _ n 1⟩
  · rw [pointsAll_matmulTree]
    exact staysInside_product rfl rfl rfl rfl rfl

theorem runnable_twoMatmul (hn : Description.Fits n) : Runnable (twoMatmul n) (twoMatmulTree n) := by
  refine runnable_of_inside (Description.build_twoMatmul hn) (nesting_twoMatmul n) hn ?_ ?_ ?_ ?_
  · show ∀ l ∈ Node.leavesAll (twoMatmulTree 0), l.weight = 1
    decide
  · show ∀ f ∈ (twoMatmul 0).computations.flatMap Computation.forms, f.weight ≤ 3
    decide
  · rw [twoMatmulTree, matmulTree, Node.headersAll_append, Node.headersAll_append, Node.headersAll_append]
    simp only [List.forall_mem_append]
    have hsquare {i j : String} (c : Nat) := counts_square (i := i) (j := j) (Nat.le_refl n) (Nat.le_refl n) c
    exact ⟨⟨⟨hsquare 0, counts_cube _ _ _ n 1⟩, hsquare 2⟩, counts_cube _ _ _ n 3⟩
  · rw [pointsAll_twoMatmulTree, List.append_assoc, List.forall_mem_append]
    exact ⟨staysInside_product rfl rfl rfl rfl rfl, staysInside_product rfl rfl rfl rfl rfl⟩

theorem staysInside_mean {name : String} {domain : List Dimension} {f : Nat → Access} {store : Access}
    {after : Option (Nat × Nat)} {point : List Int}
    (hf : ∀ k ≤ 2, (f k).InsideAt p (pointEnv (domain.map Dimension.name) point))
    (hstore : store.InsideAt p (pointEnv (domain.map Dimension.name) point)) :
    Computation.StaysInside p ⟨name, domain, mean f, store, after⟩ point :=
  List.forall_mem_cons.2 ⟨hstore, List.forall_mem_cons.2 ⟨hf 0 (by omega), List.forall_mem_cons.2
    ⟨hf 1 (by omega), List.forall_mem_singleton.2 (hf 2 (by omega))⟩⟩⟩

theorem runnable_blur (hpos : 0 < n) (hn : Description.Fits (n + 2)) : Runnable (blur n) (blurTree n) := by
  refine runnable_of_inside (Description.build_blur hpos hn) (nesting_blur n) hn ?_ ?_ ?_ ?_
  · show ∀ l ∈ Node.leavesAll (blurTree 0), l.weight = 1
    decide
  · show ∀ f ∈ (blur 0).computations.flatMap Computation.forms, f.weight ≤ 3
    decide
  · rw [blurTree, Node.headersAll_append, List.forall_mem_append]
    exact ⟨counts_square (Nat.le_refl _) (by omega) 0, counts_square (by omega) (by omega) 1⟩
  · rw [pointsAll_blurTree, List.forall_mem_append, forall_squarePoints, forall_squarePoints]
    constructor
    · rintro i hi j hj _ ⟨⟩
      refine staysInside_mean (fun k hk => ?_) (insideAt_entry (i := i) (j := j) rfl rfl rfl rfl hi hj)
      refine insideAt_of_values (i := i) (j := j + k) rfl rfl rfl ?_ ?_ hi (by omega)
      · exact Affine.value_var _ _
      · rw [Affine.value_shifted, Int.natCast_add]
        rfl
    · rintro i hi j hj _ ⟨⟩
      refine staysInside_mean (fun k hk => ?_) (insideAt_entry (i := i) (j := j) rfl rfl rfl rfl hi hj)
      refine insideAt_of_values (i := i + k) (j := j) rfl rfl rfl ?_ ?_ (by omega) hj
      · rw [Affine.value_shifted, Int.natCast_add]
        rfl
      · exact Affine.value_var _ _

theorem runnable_cholesky (hn : Description.Fits n) : Runnable (cholesky n) (choleskyTree n) := by
  refine runnable_of_inside (Description.build_cholesky hn) (nesting_cholesky n) hn ?_ ?_ ?_ ?_
  · -- leaves and forms do not depend on the size
    show ∀ l ∈ Node.leavesAll (choleskyTree 0), l.weight = 1
    decide
  · show ∀ f ∈ (cholesky 0).computations.flatMap Computation.forms, f.weight ≤ 3
    decide
  · rw [choleskyTree, Node.headersAll_append, List.forall_mem_append]
    refine ⟨counts_square (Nat.le_refl n) (Nat.le_refl n) 0, ?_⟩
    have hinner (dim a : String) : Counts n (counter dim (.var a)) := ⟨dim, .inr ⟨a, rfl⟩⟩
    refine List.forall_mem_cons.2 ⟨counts_size "i_1" (Nat.le_refl n), List.forall_mem_cons.2 ⟨hinner "j_1" "i_1", ?_⟩⟩
    exact List.forall_mem_cons.2 ⟨hinner "k" "j_1", List.forall_mem_singleton.2 (hinner "k_1" "i_1")⟩
  · -- in each computation the entry that is written is also read
    rw [pointsAll_choleskyTree, List.forall_mem_append, forall_squarePoints]
    simp only [rowPoints, List.forall_mem_flatMap, List.forall_mem_append, List.forall_mem_map,
      List.forall_mem_singleton, List.mem_range]
    refine ⟨?_, fun i hi => ⟨⟨fun j hj => ⟨fun k hk => ?_, ?_⟩, fun k hk => ?_⟩, ?_⟩⟩
    · rintro i hi j hj _ ⟨⟩
      refine List.forall_mem_cons.2 ⟨?_, List.forall_mem_singleton.2 ?_⟩
      · exact insideAt_entry (i := i) (j := j) rfl rfl rfl rfl hi hj
      · exact insideAt_entry (i := i) (j := j) rfl rfl rfl rfl hi hj
    · rintro _ ⟨⟩
      have hwritten : (entry 1 "i" "j").InsideAt (cholesky n)
          (pointEnv ["i", "j", "k"] [(i : Int), (j : Int), (k : Int)]) :=
        insideAt_entry (i := i) (j := j) rfl rfl rfl rfl hi (by omega)
      refine List.forall_mem_cons.2 ⟨hwritten, List.forall_mem_cons.2 ⟨hwritten, List.forall_mem_cons.2 ⟨?_,
        List.forall_mem_singleton.2 ?_⟩⟩⟩
      · exact insideAt_entry (i := i) (j := k) rfl rfl rfl rfl hi (by omega)
      · exact insideAt_entry (i := j) (j := k) rfl rfl rfl rfl (by omega) (by omega)
    · rintro _ ⟨⟩
      have hwritten : (entry 1 "i" "j").InsideAt (cholesky n) (pointEnv ["i", "j"] [(i : Int), (j : Int)]) :=
        insideAt_entry (i := i) (j := j) rfl rfl rfl rfl hi (by omega)
      refine List.forall_mem_cons.2 ⟨hwritten, List.forall_mem_cons.2 ⟨hwritten, List.forall_mem_singleton.2 ?_⟩⟩
      exact insideAt_entry (i := j) (j := j) rfl rfl rfl rfl (by omega) (by omega)
    · rintro _ ⟨⟩
      have hwritten : (entry 1 "i" "i").InsideAt (cholesky n) (pointEnv ["i", "k"] [(i : Int), (k : Int)]) :=
        insideAt_entry (i := i) (j := i) rfl rfl rfl rfl hi hi
      have hread : (entry 1 "i" "k").InsideAt (cholesky n) (pointEnv ["i", "k"] [(i : Int), (k : Int)]) :=
        insideAt_entry (i := i) (j := k) rfl rfl rfl rfl hi (by omega)
      exact List.forall_mem_cons.2 ⟨hwritten, List.forall_mem_cons.2 ⟨hwritten, List.forall_mem_cons.2 ⟨hread,
        List.forall_mem_singleton.2 hread⟩⟩⟩
    · rintro _ ⟨⟩
      have hwritten : (entry 1 "i" "i").InsideAt (cholesky n) (pointEnv ["i"] [(i : Int)]) :=
        insideAt_entry (i := i) (j := i) rfl rfl rfl rfl hi hi
      exact List.forall_mem_cons.2 ⟨hwritten, List.forall_mem_singleton.2 hwritten⟩

end Runs

end Program

end LoopNest
