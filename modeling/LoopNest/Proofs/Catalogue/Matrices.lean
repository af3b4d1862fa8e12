import LoopNest.Proofs.Catalogue.Trees
import Mathlib.Algebra.BigOperators.Group.Finset.Basic
import Mathlib.Algebra.Field.Defs
import Mathlib.Data.List.ProdSigma

namespace LoopNest

/-- The operations of a field, with the constant zero for its zero. -/
structure Arithmetic.Exact {V : Type} [Field V] (A : Arithmetic V) : Prop where
  add : ∀ x y, A.binary .add x y = x + y
  sub : ∀ x y, A.binary .sub x y = x - y
  mul : ∀ x y, A.binary .mul x y = x * y
  div : ∀ x y, A.binary .div x y = x / y
  zero : A.zero = 0
  ofConst_zero : A.ofConst 0.0 = 0

namespace Matrix

variable {V : Type} (A : Arithmetic V)

def product (a b : Matrix V) : Matrix V :=
  ofFn a.rows b.cols fun i j => (List.range a.cols).foldl
    (fun acc k => A.binary .add acc (A.binary .mul (a.get A i k) (b.get A k j))) (A.ofConst 0.0)

def average (f : Nat → V) : V :=
  A.round .float32 (A.binary .div (A.binary .add (A.binary .add (f 0) (f 1)) (f 2)) (A.ofConst 3.0))

theorem average_congr {f g : Nat → V} (h : ∀ k < 3, f k = g k) : average A f = average A g := by
  simp only [average, h 0 (by omega), h 1 (by omega), h 2 (by omega)]

def blurX (m : Matrix V) : Matrix V := ofFn m.rows (m.cols - 2) fun i j => average A fun k => m.get A i (j + k)

def blurY (m : Matrix V) : Matrix V := ofFn (m.rows - 2) m.cols fun i j => average A fun k => m.get A (i + k) j

section Exact

variable [Field V]

def sums (a b : Matrix V) : Matrix V :=
  ofFn a.rows b.cols fun i j => ∑ k ∈ Finset.range a.cols, a.get A i k * b.get A k j

variable {A} (h : A.Exact)
include h

omit h in
theorem foldl_range_add (f : Nat → V) (n : Nat) :
    (List.range n).foldl (fun acc k => acc + f k) 0 = ∑ k ∈ Finset.range n, f k := by
  induction n with
  | zero => rfl
  | succ n ih =>
    rw [List.range_succ, List.foldl_append, ih, Finset.sum_range_succ]
    rfl

theorem product_eq_sums (a b : Matrix V) : product A a b = sums A a b := by
  simp only [product, sums, h.add, h.mul, h.ofConst_zero, foldl_range_add]

theorem rowTimesColumn_eq (a b : Matrix V) (i j : Nat) :
    MatrixOperations.rowTimesColumn A a b i j = ∑ k ∈ Finset.range a.cols, a.get A i k * b.get A k j := by
  have hmap : ((List.range a.cols).map fun k => A.binary .mul (a.get A i k) (b.get A k j)).foldl (A.binary .add) 0 =
      (List.range a.cols).foldl (fun acc k => acc + a.get A i k * b.get A k j) 0 := by
    rw [List.foldl_map]
    simp only [h.add, h.mul]
  rw [MatrixOperations.rowTimesColumn, MatrixOperations.total, h.zero, hmap, foldl_range_add]

end Exact

end Matrix

/-- The library takes the usual sums. -/
structure MatrixOperations.Usual {V : Type} [Field V] (ops : MatrixOperations V) (A : Arithmetic V) : Prop where
  dot : ∀ a b : Matrix V, a.cols = b.rows → ops.dot a b = .ok (.sums A a b)
  generalProduct : ∀ (alpha beta : V) (a b c : Matrix V), a.cols = b.rows → c.rows = a.rows → c.cols = b.cols →
    ops.generalProduct alpha a b beta c = .ok (.ofFn a.rows b.cols fun i j =>
      alpha * (∑ k ∈ Finset.range a.cols, a.get A i k * b.get A k j) + beta * c.get A i j)
  sum : ∀ xs : List V, ops.sum xs = xs.sum

namespace MatrixOperations

variable {V : Type} [Field V] {A : Arithmetic V} (h : A.Exact)
include h

theorem usual_folds : (folds A).Usual A where
  dot a b hab := by
    change (if a.cols ≠ b.rows then _ else _) = _
    rw [if_neg (not_not_intro hab), Matrix.sums]
    simp only [← Matrix.rowTimesColumn_eq h]
  generalProduct alpha beta a b c hab hrows hcols := by
    have hshapes : ¬ (a.cols ≠ b.rows ∨ c.rows ≠ a.rows ∨ c.cols ≠ b.cols) := by
      rw [hab, hrows, hcols]
      simp
    change (if a.cols ≠ b.rows ∨ c.rows ≠ a.rows ∨ c.cols ≠ b.cols then _ else _) = _
    rw [if_neg hshapes]
    simp only [h.add, h.mul, Matrix.rowTimesColumn_eq h]
  sum xs := by
    change xs.foldl (A.binary .add) A.zero = xs.sum
    rw [h.zero, List.sum_eq_foldl]
    congr 1
    funext x y
    exact h.add x y

variable {ops : MatrixOperations V} (hops : ops.Usual A)
include hops

theorem Usual.dot_eq_product {a b : Matrix V} (hab : a.cols = b.rows) : ops.dot a b = .ok (.product A a b) := by
  rw [hops.dot a b hab, Matrix.product_eq_sums h]

theorem Usual.generalProduct_eq_product (hone : A.ofConst 1.0 = 1) {a b : Matrix V} (hab : a.cols = b.rows) :
    ops.generalProduct (A.ofConst 1.0) a b (A.ofConst 0.0) (.zeros A a.rows b.cols) = .ok (.product A a b) := by
  rw [hops.generalProduct _ _ a b (.zeros A a.rows b.cols) hab rfl rfl, hone, h.ofConst_zero, Matrix.product_eq_sums h]
  simp only [one_mul, zero_mul, add_zero, Matrix.sums]

theorem Usual.mean_eq_average (f : Nat → V) :
    Reference.mean A ops (A.round .float32) f = Matrix.average A f := by
  have hsum : ops.sum ((List.range 3).map f) = A.binary .add (A.binary .add (f 0) (f 1)) (f 2) := by
    rw [hops.sum, h.add, h.add, show (List.range 3).map f = [f 0, f 1, f 2] from rfl]
    simp only [List.sum_cons, List.sum_nil, add_zero, add_assoc]
  rw [Reference.mean, hsum, Matrix.average]

theorem Usual.blur_eq (m : Matrix V) :
    Reference.blurCols A ops (A.round .float32) (Reference.blurRows A ops (A.round .float32) m) =
      Matrix.blurY A (Matrix.blurX A m) := by
  simp only [Reference.blurCols, Reference.blurRows, hops.mean_eq_average h]
  rfl

end MatrixOperations

namespace Tensors

open Program.Catalogue Interpreter

variable {V : Type} {A : Arithmetic V} {p : Program}

theorem step_eq {q : Nat} {c : Computation} (hc : p.computations[q]? = some c) (point : List Int) (T : Tensors V) :
    step A p (q, point) T = Function.update T (c.storeEntry point) (c.valueAt A p point T) := by
  simp only [step, hc]

theorem entryAt_entry {b : Nat} {env : Valuation} {s t : String} {x y : Int} (hs : env s = x) (ht : env t = y) :
    (entry b s t).entryAt env = (b, [x, y]) := by
  simp only [Access.entryAt, entry, List.map_cons, List.map_nil, Affine.value_var, hs, ht]

def Holds (A : Arithmetic V) (b : Nat) (m : Matrix V) (T : Tensors V) : Prop :=
  ∀ i < m.rows, ∀ j < m.cols, T (b, [(i : Int), (j : Int)]) = m.get A i j

structure Assigns (A : Arithmetic V) (b : Nat) (m : Matrix V) (T T' : Tensors V) : Prop where
  holds : Holds A b m T'
  others : ∀ e : Entry, e.1 ≠ b → T' e = T e

theorem Assigns.keeps {b b' : Nat} {m m' : Matrix V} {T T' : Tensors V} (h : Assigns A b m T T') (hne : b' ≠ b)
    (hholds : Holds A b' m' T) : Holds A b' m' T' :=
  fun i hi j hj => (h.others _ hne).trans (hholds i hi j hj)

section Nests

variable {rows cols b : Nat}

theorem assigns_of_places (points : Nat → Nat → List InstanceId) (value : Nat → Nat → Tensors V → V)
    (hpoints : ∀ i < rows, ∀ j < cols, ∀ T : Tensors V,
      run A p (points i j) T = Function.update T (b, [(i : Int), (j : Int)]) (value i j T))
    (hvalue : ∀ i < rows, ∀ j < cols, ∀ T T' : Tensors V,
      (∀ e, (e.1 = b → e = (b, [(i : Int), (j : Int)])) → T e = T' e) → value i j T = value i j T')
    (T : Tensors V) : Assigns A b (Matrix.ofFn rows cols fun i j => value i j T) T
      (run A p ((List.range rows).flatMap fun i => (List.range cols).flatMap (points i)) T) := by
  have hrun : run A p ((List.range rows).flatMap fun i => (List.range cols).flatMap (points i)) T =
      (List.range rows ×ˢ List.range cols).foldl
        (fun T x => Function.update T (b, [(x.1 : Int), (x.2 : Int)]) (value x.1 x.2 T)) T := by
    -- Row after row is the order of the pairs, so both loops are one fold over them.
    have hpairs : ((List.range rows).flatMap fun i => (List.range cols).flatMap (points i)) =
        (List.range rows ×ˢ List.range cols).flatMap fun x => points x.1 x.2 := by
      simp only [SProd.sprod, List.product, List.flatMap_assoc, List.flatMap_map]
    rw [hpairs, run_flatMap]
    apply List.foldl_ext
    intro T x hx
    obtain ⟨hi, hj⟩ := List.mem_product.1 hx
    exact hpoints x.1 (List.mem_range.1 hi) x.2 (List.mem_range.1 hj) T
  have hnodup : ((List.range rows ×ˢ List.range cols).map
      fun x => ((b, [(x.1 : Int), (x.2 : Int)]) : Entry)).Nodup := by
    refine List.Nodup.map ?_ (List.nodup_range.product List.nodup_range)
    intro x y hxy
    simp only [Prod.mk.injEq, List.cons.injEq, Int.natCast_inj, true_and, and_true] at hxy
    exact Prod.ext hxy.1 hxy.2
  have hapart : ∀ x ∈ List.range rows ×ˢ List.range cols, ∀ T T' : Tensors V,
      (∀ e, (e ∈ (List.range rows ×ˢ List.range cols).map (fun x => ((b, [(x.1 : Int), (x.2 : Int)]) : Entry)) →
        e = (b, [(x.1 : Int), (x.2 : Int)])) → T e = T' e) → value x.1 x.2 T = value x.1 x.2 T' := by
    intro x hx T T' hT
    obtain ⟨hi, hj⟩ := List.mem_product.1 hx
    apply hvalue x.1 (List.mem_range.1 hi) x.2 (List.mem_range.1 hj)
    intro e he
    apply hT
    intro hmem
    obtain ⟨y, -, rfl⟩ := List.mem_map.1 hmem
    exact he rfl
  obtain ⟨hin, hout⟩ := foldl_update_apart hnodup hapart T
  rw [hrun]
  constructor
  · intro i (hi : i < rows) j (hj : j < cols)
    rw [Matrix.get_ofFn hi hj]
    exact hin (i, j) (List.mem_product.2 ⟨List.mem_range.2 hi, List.mem_range.2 hj⟩)
  · intro e he
    apply hout
    intro hmem
    obtain ⟨y, -, rfl⟩ := List.mem_map.1 hmem
    exact he rfl

theorem assigns_squarePoints (rows cols : Nat) {q : Nat} {c : Computation} (hc : p.computations[q]? = some c)
    (hstore : ∀ i j : Nat, c.storeEntry [(i : Int), (j : Int)] = (b, [(i : Int), (j : Int)]))
    (hvalue : ∀ (i j : Nat) (T T' : Tensors V), (∀ e, e.1 ≠ b → T e = T' e) →
      c.valueAt A p [(i : Int), (j : Int)] T = c.valueAt A p [(i : Int), (j : Int)] T') (T : Tensors V) :
    Assigns A b (Matrix.ofFn rows cols fun i j => c.valueAt A p [(i : Int), (j : Int)] T) T
      (run A p (squarePoints rows cols q) T) := by
  have hpoints : squarePoints rows cols q = (List.range rows).flatMap fun (i : Nat) =>
      (List.range cols).flatMap fun (j : Nat) => [(q, [(i : Int), (j : Int)])] := by
    simp only [squarePoints, List.map_eq_flatMap]
  rw [hpoints]
  apply assigns_of_places _ fun i j => c.valueAt A p [(i : Int), (j : Int)]
  · intro i _ j _ T
    rw [run_cons, run_nil, step_eq hc, hstore]
  · intro i _ j _ T T' h
    apply hvalue
    intro e he
    exact h e fun hb => absurd hb he

end Nests

section Entries

variable (n a b c : Nat) (name : String) (i j k : Int)

theorem storeEntry_accumulate : (accumulate n name c a b).storeEntry [i, j, k] = (c, [i, j]) := entryAt_entry rfl rfl

theorem valueAt_accumulate (T : Tensors V) : (accumulate n name c a b).valueAt A p [i, j, k] T =
    A.round (dtypeOf p c) (A.binary .add (T (c, [i, j])) (A.binary .mul (T (a, [i, k])) (T (b, [k, j])))) := by
  have hc : (entry c "i" "j").entryAt (pointEnv ["i", "j", "k"] [i, j, k]) = (c, [i, j]) := entryAt_entry rfl rfl
  have ha : (entry a "i" "k").entryAt (pointEnv ["i", "j", "k"] [i, j, k]) = (a, [i, k]) := entryAt_entry rfl rfl
  have hb : (entry b "k" "j").entryAt (pointEnv ["i", "j", "k"] [i, j, k]) = (b, [k, j]) := entryAt_entry rfl rfl
  rw [← hc, ← ha, ← hb]
  rfl

end Entries

section Product

variable {n a b c : Nat} (hround : ∀ x, A.round .float64 x = x) (hdtype : dtypeOf p c = .float64)
include hround hdtype

theorem assigns_clear {q : Nat} {name : String} (hq : p.computations[q]? = some (clear n name c)) (T : Tensors V) :
    Assigns A c (Matrix.ofFn n n fun _ _ => A.ofConst 0.0) T (run A p (squarePoints n n q) T) := by
  have hvalue (point : List Int) (T : Tensors V) : (clear n name c).valueAt A p point T = A.ofConst 0.0 := by
    change A.round (dtypeOf p c) (A.ofConst 0.0) = _
    rw [hdtype, hround]
  have h := assigns_squarePoints (A := A) (b := c) n n hq (fun _ _ => entryAt_entry rfl rfl)
    (fun i j T T' _ => by rw [hvalue, hvalue]) T
  simp only [hvalue] at h
  exact h

variable (hac : a ≠ c) (hbc : b ≠ c)
include hac hbc

theorem run_accumulate {q : Nat} {name : String} (hq : p.computations[q]? = some (accumulate n name c a b))
    (i j : Nat) (ks : List Nat) (T : Tensors V) :
    run A p (ks.map fun (k : Nat) => (q, [(i : Int), (j : Int), (k : Int)])) T =
      Function.update T (c, [(i : Int), (j : Int)])
        (ks.foldl (fun acc (k : Nat) => A.binary .add acc
          (A.binary .mul (T (a, [(i : Int), (k : Int)])) (T (b, [(k : Int), (j : Int)]))))
          (T (c, [(i : Int), (j : Int)]))) := by
  -- The induction is on the products that are left; the sum so far stands in the place itself.
  induction ks generalizing T with
  | nil => exact (Function.update_eq_self _ T).symm
  | cons k ks ih =>
    have hstep : step A p (q, [(i : Int), (j : Int), (k : Int)]) T = Function.update T (c, [(i : Int), (j : Int)])
        (A.binary .add (T (c, [(i : Int), (j : Int)]))
          (A.binary .mul (T (a, [(i : Int), (k : Int)])) (T (b, [(k : Int), (j : Int)])))) := by
      rw [step_eq hq, storeEntry_accumulate, valueAt_accumulate, hdtype, hround]
    have hother {b' : Nat} (hb' : b' ≠ c) (vs : List Int) (x : V) :
        Function.update T (c, [(i : Int), (j : Int)]) x (b', vs) = T (b', vs) :=
      Function.update_of_ne (fun h => hb' (congrArg Prod.fst h)) x T
    rw [List.map_cons, run_cons, hstep, ih, Function.update_idem, List.foldl_cons, Function.update_self]
    simp only [hother hac, hother hbc]

theorem assigns_accumulate {q : Nat} {name : String} (hq : p.computations[q]? = some (accumulate n name c a b))
    (T : Tensors V) : Assigns A c
      (Matrix.ofFn n n fun i j => (List.range n).foldl
        (fun acc (k : Nat) => A.binary .add acc
          (A.binary .mul (T (a, [(i : Int), (k : Int)])) (T (b, [(k : Int), (j : Int)]))))
        (T (c, [(i : Int), (j : Int)])))
      T (run A p (cubePoints n q) T) := by
  apply assigns_of_places
    (fun i j => (List.range n).map fun (k : Nat) => (q, [(i : Int), (j : Int), (k : Int)]))
    (fun i j T => (List.range n).foldl (fun acc (k : Nat) => A.binary .add acc
      (A.binary .mul (T (a, [(i : Int), (k : Int)])) (T (b, [(k : Int), (j : Int)]))))
      (T (c, [(i : Int), (j : Int)])))
  · intro i _ j _ T
    exact run_accumulate hround hdtype hac hbc hq i j (List.range n) T
  · intro i _ j _ T T' h
    have ha (vs : List Int) : T (a, vs) = T' (a, vs) := h _ fun h => absurd h hac
    have hb (vs : List Int) : T (b, vs) = T' (b, vs) := h _ fun h => absurd h hbc
    rw [h _ fun _ => rfl]
    simp only [ha, hb]

theorem assigns_product (q q' : Nat) {name name' : String} (hq : p.computations[q]? = some (clear n name c))
    (hq' : p.computations[q']? = some (accumulate n name' c a b)) {ma mb : Matrix V} {T : Tensors V}
    (hrows : ma.rows = n) (hcols : ma.cols = n) (hrows' : mb.rows = n) (hcols' : mb.cols = n)
    (ha : Holds A a ma T) (hb : Holds A b mb T) :
    Assigns A c (Matrix.product A ma mb) T (run A p (squarePoints n n q ++ cubePoints n q') T) := by
  have hclear := assigns_clear hround hdtype hq T
  have hsum := assigns_accumulate hround hdtype hac hbc hq' (run A p (squarePoints n n q) T)
  have hproduct : Matrix.product A ma mb = Matrix.ofFn n n fun i j => (List.range n).foldl
      (fun acc (k : Nat) => A.binary .add acc (A.binary .mul
        (run A p (squarePoints n n q) T (a, [(i : Int), (k : Int)]))
        (run A p (squarePoints n n q) T (b, [(k : Int), (j : Int)]))))
      (run A p (squarePoints n n q) T (c, [(i : Int), (j : Int)])) := by
    rw [Matrix.product, hrows, hcols, hcols']
    apply Matrix.ofFn_congr
    intro i hi j hj
    rw [hclear.holds i hi j hj, Matrix.get_ofFn hi hj]
    apply List.foldl_ext
    intro acc k hk
    have hk := List.mem_range.1 hk
    rw [hclear.keeps hac ha i (hrows ▸ hi) k (hcols ▸ hk), hclear.keeps hbc hb k (hrows' ▸ hk) j (hcols' ▸ hj)]
  rw [hproduct, run_append]
  exact ⟨hsum.holds, fun e he => (hsum.others e he).trans (hclear.others e he)⟩

end Product

section Mean

variable {rows cols b : Nat} {name : String} {f : Nat → Access} {after : Option (Nat × Nat)}

theorem assigns_mean (reads : Nat → Nat → Nat → Entry) {q : Nat} (hq : p.computations[q]? =
      some ⟨name, [upTo "i" (.ofInt rows), upTo "j" (.ofInt cols)], mean f, entry b "i" "j", after⟩)
    (hdtype : dtypeOf p b = .float32)
    (hreads : ∀ i j k : Nat, (f k).entryAt (pointEnv ["i", "j"] [(i : Int), (j : Int)]) = reads i j k)
    (hothers : ∀ i j k, (reads i j k).1 ≠ b) (T : Tensors V) :
    Assigns A b (Matrix.ofFn rows cols fun i j => Matrix.average A fun k => T (reads i j k)) T
      (run A p (squarePoints rows cols q) T) := by
  have hvalue (i j : Nat) (T : Tensors V) : Computation.valueAt A p
      ⟨name, [upTo "i" (.ofInt rows), upTo "j" (.ofInt cols)], mean f, entry b "i" "j", after⟩
      [(i : Int), (j : Int)] T = Matrix.average A fun k => T (reads i j k) := by
    simp only [← hreads]
    change A.round (dtypeOf p b) _ = A.round .float32 _
    rw [hdtype]
    rfl
  have h := assigns_squarePoints (A := A) (b := b) rows cols hq (fun _ _ => entryAt_entry rfl rfl) ?_ T
  · simp only [hvalue] at h
    exact h
  · intro i j T T' h
    rw [hvalue, hvalue]
    congr 1
    funext k
    exact h _ (hothers i j k)

variable {n : Nat} {m : Matrix V} {T : Tensors V}

theorem assigns_blurX (hrows : m.rows = n + 2) (hcols : m.cols = n + 2) (hm : Holds A 0 m T) :
    Assigns A 1 (Matrix.blurX A m) T (run A (.blur n) (squarePoints (n + 2) n 0) T) := by
  have h := assigns_mean (A := A) (p := .blur n) (q := 0)
    (fun i j k => (0, [(i : Int), ((j + k : Nat) : Int)])) rfl rfl (fun i j k => ?_) (fun _ _ _ => Nat.zero_ne_one) T
  · have hvalues : Matrix.blurX A m = Matrix.ofFn (n + 2) n fun i j =>
        Matrix.average A fun k => T (0, [(i : Int), ((j + k : Nat) : Int)]) := by
      rw [Matrix.blurX, hrows, hcols]
      apply Matrix.ofFn_congr
      intro i hi j hj
      apply Matrix.average_congr
      intro k hk
      exact (hm i (hrows ▸ hi) (j + k) (by omega)).symm
    rw [hvalues]
    exact h
  · simp only [Access.entryAt, List.map_cons, List.map_nil, Affine.value_var, Affine.value_shifted, Int.natCast_add]
    rfl

theorem assigns_blurY (hrows : m.rows = n + 2) (hcols : m.cols = n) (hm : Holds A 1 m T) :
    Assigns A 2 (Matrix.blurY A m) T (run A (.blur n) (squarePoints n n 1) T) := by
  have h := assigns_mean (A := A) (p := .blur n) (q := 1)
    (fun i j k => (1, [((i + k : Nat) : Int), (j : Int)])) rfl rfl (fun i j k => ?_)
    (fun _ _ _ => Nat.succ_ne_self 1 ∘ Eq.symm) T
  · have hvalues : Matrix.blurY A m = Matrix.ofFn n n fun i j =>
        Matrix.average A fun k => T (1, [((i + k : Nat) : Int), (j : Int)]) := by
      rw [Matrix.blurY, hrows, hcols]
      apply Matrix.ofFn_congr
      intro i hi j hj
      apply Matrix.average_congr
      intro k hk
      exact (hm (i + k) (by omega) j (hcols ▸ hj)).symm
    rw [hvalues]
    exact h
  · simp only [Access.entryAt, List.map_cons, List.map_nil, Affine.value_var, Affine.value_shifted, Int.natCast_add]
    rfl

end Mean

end Tensors

end LoopNest
