import LoopNest.Proofs.Catalogue.References
import LoopNest.Proofs.Execution.Arguments
import Mathlib.Analysis.Real.Sqrt
import Mathlib.Analysis.SpecialFunctions.Exp

/-!
The factor that the Cholesky program computes in place, for every size. A row is finished from left to right, each entry
from the finished part of its own row and from the rows above it; the entries right of the diagonal and the rows below
are still those of the copied matrix.
-/

namespace LoopNest

namespace Tensors

open Program.Catalogue Interpreter

def factor (i j : Nat) : Entry := (1, [(i : Int), (j : Int)])

theorem factor_inj {i j i' j' : Nat} : factor i j = factor i' j' ↔ i = i' ∧ j = j' := by
  simp [factor]

theorem factor_ne {i j i' j' : Nat} (h : i ≠ i' ∨ j ≠ j') : factor i j ≠ factor i' j' := by
  intro heq
  have hsame := factor_inj.1 heq
  omega

section Steps

variable {V : Type} {A : Arithmetic V} (hround : ∀ x, A.round .float64 x = x) (n i j k : Nat) (T : Tensors V)

section Values

include hround

theorem run_copy {i j : Nat} (hi : i < n) (hj : j < n) :
    run A (.cholesky n) (squarePoints n n 0) T (factor i j) = T (0, [(i : Int), (j : Int)]) := by
  have hvalue (i j : Nat) (T : Tensors V) : A.round .float64
      (T ((entry 0 "i" "j").entryAt (pointEnv ["i", "j"] [(i : Int), (j : Int)]))) = T (0, [(i : Int), (j : Int)]) := by
    rw [hround, entryAt_entry (x := (i : Int)) (y := (j : Int)) rfl rfl]
  have hcopy := assigns_squarePoints (A := A) (p := .cholesky n) (q := 0) (b := 1) n n rfl
    (fun _ _ => entryAt_entry rfl rfl)
    (fun i j T T' h => (hvalue i j T).trans ((h _ Nat.zero_ne_one).trans (hvalue i j T').symm)) T
  rw [factor, hcopy.holds i hi j hj, Matrix.get_ofFn hi hj]
  exact hvalue i j T

theorem step_multiply : step A (.cholesky n) (1, [(i : Int), (j : Int), (k : Int)]) T =
    Function.update T (factor i j)
      (A.binary .sub (T (factor i j)) (A.binary .mul (T (factor i k)) (T (factor j k)))) := by
  have hij : (entry 1 "i" "j").entryAt (pointEnv ["i", "j", "k"] [(i : Int), (j : Int), (k : Int)]) = factor i j :=
    entryAt_entry rfl rfl
  have hik : (entry 1 "i" "k").entryAt (pointEnv ["i", "j", "k"] [(i : Int), (j : Int), (k : Int)]) = factor i k :=
    entryAt_entry rfl rfl
  have hjk : (entry 1 "j" "k").entryAt (pointEnv ["i", "j", "k"] [(i : Int), (j : Int), (k : Int)]) = factor j k :=
    entryAt_entry rfl rfl
  rw [← hij, ← hik, ← hjk, ← hround (A.binary .sub _ _)]
  rfl

theorem step_divide : step A (.cholesky n) (2, [(i : Int), (j : Int)]) T =
    Function.update T (factor i j) (A.binary .div (T (factor i j)) (T (factor j j))) := by
  have hij : (entry 1 "i" "j").entryAt (pointEnv ["i", "j"] [(i : Int), (j : Int)]) = factor i j :=
    entryAt_entry rfl rfl
  have hjj : (entry 1 "j" "j").entryAt (pointEnv ["i", "j"] [(i : Int), (j : Int)]) = factor j j :=
    entryAt_entry rfl rfl
  rw [← hij, ← hjj, ← hround (A.binary .div _ _)]
  rfl

theorem step_square : step A (.cholesky n) (3, [(i : Int), (k : Int)]) T =
    Function.update T (factor i i)
      (A.binary .sub (T (factor i i)) (A.binary .mul (T (factor i k)) (T (factor i k)))) := by
  have hii : (entry 1 "i" "i").entryAt (pointEnv ["i", "k"] [(i : Int), (k : Int)]) = factor i i :=
    entryAt_entry rfl rfl
  have hik : (entry 1 "i" "k").entryAt (pointEnv ["i", "k"] [(i : Int), (k : Int)]) = factor i k :=
    entryAt_entry rfl rfl
  rw [← hii, ← hik, ← hround (A.binary .sub _ _)]
  rfl

theorem step_root : step A (.cholesky n) (4, [(i : Int)]) T =
    Function.update T (factor i i) (A.call .sqrt (T (factor i i))) := by
  have hii : (entry 1 "i" "i").entryAt (pointEnv ["i"] [(i : Int)]) = factor i i := entryAt_entry rfl rfl
  rw [← hii, ← hround (A.call .sqrt _)]
  rfl

end Values

theorem stepArguments_root : stepArguments A .sqrt (.cholesky n) (4, [(i : Int)]) T = [T (factor i i)] := by
  have hii : (entry 1 "i" "i").entryAt (pointEnv ["i"] [(i : Int)]) = factor i i := entryAt_entry rfl rfl
  rw [← hii]
  rfl

theorem arguments_eq_nil {ids : List InstanceId} (h : ∀ id ∈ ids, id.1 ≠ 4) :
    arguments A .sqrt (.cholesky n) ids T = [] := by
  induction ids generalizing T with
  | nil => rfl
  | cons id ids ih =>
    obtain ⟨hid, hids⟩ := List.forall_mem_cons.1 h
    have hstep : stepArguments A .sqrt (.cholesky n) id T = [] := by
      obtain ⟨q, point⟩ := id
      match q, hid with
      | 0, _ => rfl
      | 1, _ => rfl
      | 2, _ => rfl
      | 3, _ => rfl
      | _ + 5, _ => rfl
    rw [arguments, hstep, ih _ hids, List.nil_append]

end Steps

section Field

variable {K : Type} [Field K] {A : Arithmetic K} (hA : A.Exact) (hround : ∀ x, A.round .float64 x = x) {n : Nat}

theorem run_subtract {p : Program} {point : Nat → InstanceId} {e : Entry} {x y : Nat → Entry} {m : Nat}
    (hstep : ∀ k < m, ∀ T : Tensors K, step A p (point k) T = Function.update T e (T e - T (x k) * T (y k)))
    (hx : ∀ k < m, x k ≠ e) (hy : ∀ k < m, y k ≠ e) (T : Tensors K) :
    run A p ((List.range m).map point) T =
      Function.update T e (T e - ∑ k ∈ Finset.range m, T (x k) * T (y k)) := by
  induction m with
  | zero => simp
  | succ m ih =>
    have hlast := Nat.lt_succ_self m
    rw [List.range_succ, List.map_append, run_append,
      ih (fun k hk => hstep k (by omega)) (fun k hk => hx k (by omega)) (fun k hk => hy k (by omega)),
      List.map_singleton, run_cons, run_nil, hstep m hlast, Function.update_idem, Function.update_self,
      Function.update_of_ne (hx m hlast), Function.update_of_ne (hy m hlast), Finset.sum_range_succ]
    congr 1
    ring

def columnPoints (i j : Nat) : List InstanceId :=
  ((List.range j).map fun (k : Nat) => (1, [(i : Int), (j : Int), (k : Int)])) ++ [(2, [(i : Int), (j : Int)])]

theorem rowPoints_eq (i : Nat) : rowPoints i = (List.range i).flatMap (columnPoints i) ++
    ((List.range i).map fun (k : Nat) => (3, [(i : Int), (k : Int)])) ++ [(4, [(i : Int)])] := rfl

structure Columns (i m : Nat) (T T' : Tensors K) : Prop where
  others : ∀ e, (∀ j < m, e ≠ factor i j) → T' e = T e
  products : ∀ j < m, ∑ k ∈ Finset.range (j + 1), T' (factor i k) * T (factor j k) = T (factor i j)

structure Row (i : Nat) (T T' : Tensors K) : Prop where
  others : ∀ e, (∀ j ≤ i, e ≠ factor i j) → T' e = T e
  diagonal : T' (factor i i) ≠ 0
  products : ∀ j ≤ i, ∑ k ∈ Finset.range (j + 1), T' (factor i k) * T' (factor j k) = T (factor i j)

section Columns

variable {i m : Nat} {T T' : Tensors K} (hc : Columns i m T T')
include hc

theorem Columns.others_of_ne {j k : Nat} (h : j ≠ i ∨ m ≤ k) : T' (factor j k) = T (factor j k) :=
  hc.others _ fun _ _ => factor_ne (by omega)

theorem Columns.succ (hm : m < i) (hdiagonal : T (factor m m) ≠ 0) : Columns i (m + 1) T
    (Function.update T' (factor i m)
      ((T' (factor i m) - ∑ k ∈ Finset.range m, T' (factor i k) * T' (factor m k)) / T' (factor m m))) := by
  have habove (k : Nat) : T' (factor m k) = T (factor m k) := hc.others_of_ne (by omega)
  have hentry : T' (factor i m) = T (factor i m) := hc.others_of_ne (by omega)
  have hbefore (k : Nat) (hk : k < m) (v : K) : Function.update T' (factor i m) v (factor i k) = T' (factor i k) :=
    Function.update_of_ne (factor_ne (by omega)) v T'
  simp only [habove, hentry]
  constructor
  · intro e he
    rw [Function.update_of_ne (he m (Nat.lt_succ_self m))]
    exact hc.others e fun j hj => he j (by omega)
  · intro j hj
    rcases Nat.lt_succ_iff_lt_or_eq.1 hj with hj | rfl
    · rw [← hc.products j hj]
      apply Finset.sum_congr rfl
      intro k hk
      have hk := Finset.mem_range.1 hk
      rw [hbefore k (by omega)]
    · rw [Finset.sum_range_succ, Function.update_self, div_mul_cancel₀ _ hdiagonal,
        Finset.sum_congr rfl fun k hk => by rw [hbefore k (Finset.mem_range.1 hk)]]
      exact add_sub_cancel _ _

end Columns

theorem Columns.row {i : Nat} {T T' : Tensors K} (hc : Columns i i T T') {s : K} (hs : s ≠ 0)
    (hroot : s * s = T' (factor i i) - ∑ k ∈ Finset.range i, T' (factor i k) * T' (factor i k)) :
    Row i T (Function.update T' (factor i i) s) := by
  have hkept (j k : Nat) (h : j ≠ i ∨ k ≠ i) : Function.update T' (factor i i) s (factor j k) = T' (factor j k) :=
    Function.update_of_ne (factor_ne h) s T'
  constructor
  · intro e he
    rw [Function.update_of_ne (he i (Nat.le_refl i))]
    exact hc.others e fun j hj => he j (by omega)
  · rw [Function.update_self]
    exact hs
  · intro j hj
    rcases Nat.lt_or_eq_of_le hj with hj | rfl
    · rw [← hc.products j hj]
      apply Finset.sum_congr rfl
      intro k hk
      have hk := Finset.mem_range.1 hk
      rw [hkept i k (by omega), hkept j k (by omega), hc.others_of_ne (j := j) (by omega)]
    · rw [Finset.sum_range_succ, Function.update_self, hroot,
        Finset.sum_congr rfl fun k hk => by rw [hkept j k (Or.inr (Finset.mem_range.1 hk).ne)],
        hc.others_of_ne (by omega)]
      exact add_sub_cancel _ _

structure Factored (a : Nat → Nat → K) (n m : Nat) (T : Tensors K) : Prop where
  diagonal : ∀ i < m, T (factor i i) ≠ 0
  products : ∀ i < m, ∀ j ≤ i, ∑ k ∈ Finset.range (j + 1), T (factor i k) * T (factor j k) = a i j
  rest : ∀ i j, i < n → j < n → m ≤ i ∨ i < j → T (factor i j) = a i j

theorem Factored.succ {a : Nat → Nat → K} {m : Nat} {T T' : Tensors K} (h : Factored a n m T) (hrow : Row m T T')
    (hm : m < n) : Factored a n (m + 1) T' := by
  have habove (i j : Nat) (hi : i < m) : T' (factor i j) = T (factor i j) :=
    hrow.others _ fun l _ => factor_ne (by omega)
  constructor
  · intro i hi
    rcases Nat.lt_succ_iff_lt_or_eq.1 hi with hi | rfl
    · rw [habove i i hi]
      exact h.diagonal i hi
    · exact hrow.diagonal
  · intro i hi j hj
    rcases Nat.lt_succ_iff_lt_or_eq.1 hi with hi | rfl
    · simp only [habove i _ hi, habove j _ (Nat.lt_of_le_of_lt hj hi)]
      exact h.products i hi j hj
    · rw [hrow.products j hj]
      exact h.rest i j hm (by omega) (Or.inl (Nat.le_refl i))
  · intro i j hi hj hij
    rw [hrow.others _ fun l _ => factor_ne (by omega)]
    exact h.rest i j hi hj (by omega)

include hround

theorem factored_copy {a : Matrix K} {T : Tensors K} (hrows : a.rows = n) (hcols : a.cols = n) (h : Holds A 0 a T) :
    Factored (fun i j => a.get A i j) n 0 (run A (.cholesky n) (squarePoints n n 0) T) := by
  refine ⟨fun i hi => absurd hi (Nat.not_lt_zero i), fun i hi => absurd hi (Nat.not_lt_zero i), ?_⟩
  intro i j hi hj _
  rw [run_copy hround n T hi hj]
  exact h i (hrows ▸ hi) j (hcols ▸ hj)

include hA

theorem run_columnPoints {i j : Nat} (hj : j < i) (T : Tensors K) :
    run A (.cholesky n) (columnPoints i j) T = Function.update T (factor i j)
      ((T (factor i j) - ∑ k ∈ Finset.range j, T (factor i k) * T (factor j k)) / T (factor j j)) := by
  have hsubtract := run_subtract (A := A) (p := .cholesky n) (e := factor i j) (x := factor i) (y := factor j) (m := j)
    (fun k _ T => by rw [step_multiply hround, hA.sub, hA.mul]) (fun k hk => factor_ne (by omega))
    (fun k hk => factor_ne (by omega)) T
  have hdiagonal : factor j j ≠ factor i j := factor_ne (by omega)
  rw [columnPoints, run_append, hsubtract, run_cons, run_nil, step_divide hround, hA.div, Function.update_idem,
    Function.update_self, Function.update_of_ne hdiagonal]

theorem columns_run {i m : Nat} (hm : m ≤ i) {T : Tensors K} (hdiagonal : ∀ j < i, T (factor j j) ≠ 0) :
    Columns i m T (run A (.cholesky n) ((List.range m).flatMap (columnPoints i)) T) := by
  induction m with
  | zero => exact ⟨fun e _ => rfl, fun j hj => absurd hj (Nat.not_lt_zero j)⟩
  | succ m ih =>
    have hmi : m < i := hm
    rw [List.range_succ, List.flatMap_append, run_append, List.flatMap_singleton, run_columnPoints hA hround hmi]
    exact (ih (by omega)).succ hmi (hdiagonal m hmi)

theorem row_run [LinearOrder K] (hsqrt : ∀ x : K, 0 < x → A.call .sqrt x * A.call .sqrt x = x) {i : Nat} {T : Tensors K}
    (hdiagonal : ∀ j < i, T (factor j j) ≠ 0) :
    ∃ d, arguments A .sqrt (.cholesky n) (rowPoints i) T = [d] ∧
      (0 < d → Row i T (run A (.cholesky n) (rowPoints i) T)) := by
  have hc := columns_run (n := n) hA hround (Nat.le_refl i) hdiagonal
  have hnil : ∀ id ∈ ((List.range i).flatMap (columnPoints i)) ++
      ((List.range i).map fun (k : Nat) => (3, [(i : Int), (k : Int)])), id.1 ≠ 4 := by
    intro id hid
    simp only [columnPoints, List.mem_append, List.mem_flatMap, List.mem_map, List.mem_singleton] at hid
    rcases hid with ⟨j, -, ⟨k, -, rfl⟩ | rfl⟩ | ⟨k, -, rfl⟩ <;> simp
  rw [rowPoints_eq, arguments_append, arguments_eq_nil _ _ hnil, List.nil_append]
  simp only [run_append]
  -- From here on it only matters that the entries left of the diagonal are final.
  generalize run A (.cholesky n) ((List.range i).flatMap (columnPoints i)) T = T' at hc ⊢
  have hsquares := run_subtract (A := A) (p := .cholesky n) (e := factor i i) (x := factor i) (y := factor i) (m := i)
    (fun k _ T => by rw [step_square hround, hA.sub, hA.mul]) (fun k hk => factor_ne (by omega))
    (fun k hk => factor_ne (by omega)) T'
  rw [hsquares, run_cons, run_nil, arguments, arguments, stepArguments_root, step_root hround, Function.update_self,
    Function.update_idem, List.append_nil]
  refine ⟨_, rfl, fun hd => ?_⟩
  have hroot := hsqrt _ hd
  apply hc.row _ hroot
  intro hzero
  rw [hzero, mul_zero] at hroot
  exact hd.ne hroot

theorem factored_run [LinearOrder K] (hsqrt : ∀ x : K, 0 < x → A.call .sqrt x * A.call .sqrt x = x)
    {a : Nat → Nat → K} {T : Tensors K} (h : Factored a n 0 T) {m : Nat} (hm : m ≤ n)
    (hpositive : ∀ x ∈ arguments A .sqrt (.cholesky n) ((List.range m).flatMap rowPoints) T, 0 < x) :
    Factored a n m (run A (.cholesky n) ((List.range m).flatMap rowPoints) T) := by
  induction m with
  | zero => exact h
  | succ m ih =>
    rw [List.range_succ, List.flatMap_append, List.flatMap_singleton, arguments_append, List.forall_mem_append]
      at hpositive
    have habove := ih (by omega) hpositive.1
    obtain ⟨d, hd, hrow⟩ := row_run hA hround hsqrt habove.diagonal
    rw [hd, List.forall_mem_singleton] at hpositive
    rw [List.range_succ, List.flatMap_append, List.flatMap_singleton, run_append]
    exact habove.succ (hrow hpositive.2) hm

end Field

end Tensors

open Tensors Interpreter Reference Program.Catalogue in
/-- Where the square root is given positive values only, the lower triangle of the result is the factor of the matrix,
and the entries right of the diagonal are those of the matrix. -/
theorem cholesky_factors {K : Type} [Field K] [LinearOrder K] [IsStrictOrderedRing K] (A : Arithmetic K) (hA : A.Exact)
    (hround : ∀ x, A.round .float64 x = x) (hsqrt : ∀ x : K, 0 < x → A.call .sqrt x * A.call .sqrt x = x) (n : Int)
    (p : Program) (hp : (Description.cholesky n).build = .ok p) (i : Inputs K) (hi : i.validate p = .ok ()) :
    ∃ roots, ∃ a l : Matrix K, ∃ given : List K, p.nesting = .ok roots ∧ Reads p i "A" n.toNat a ∧
      Interpreter.arguments A .sqrt p roots i = .ok given ∧ execute A p roots i = .ok [("L", l.entries)] ∧
      l.rows = n.toNat ∧ l.cols = n.toNat ∧
      ((∀ x ∈ given, 0 < x) →
        (∀ r < n.toNat, ∀ j ≤ r, ∑ k ∈ Finset.range (j + 1), l.get A r k * l.get A j k = a.get A r j) ∧
        ∀ r j, r < j → j < n.toNat → l.get A r j = a.get A r j) := by
  obtain ⟨m, hm, hfits⟩ := Description.fits_of_build hp (n := n) (k := 0) rfl rfl List.mem_cons_self rfl
  obtain rfl : n = m := by omega
  cases hp.symm.trans (Description.build_cholesky hfits)
  have hrunnable := Program.runnable_cholesky hfits
  obtain ⟨values, c, hvalues, hc, hd⟩ := exists_runTree (A := A) hp hrunnable hi
  have hgiven := arguments_eq (f := .sqrt) hp hrunnable hi hvalues
  obtain ⟨a, ha, hholds⟩ := exists_reads hi hvalues (b := 0) rfl rfl rfl rfl
  have hcopied : ∀ id ∈ squarePoints m m 0, id.1 ≠ 4 := forall_squarePoints.2 fun _ _ _ _ => by simp
  rw [Program.pointsAll_choleskyTree, arguments_append, arguments_eq_nil m _ hcopied, List.nil_append] at hgiven
  rw [Program.pointsAll_choleskyTree, run_append] at hd
  have hfactored := factored_run hA hround hsqrt (factored_copy hround ha.rows ha.cols hholds) (Nat.le_refl m)
  generalize run A (.cholesky m) ((List.range m).flatMap rowPoints) _ = T at hd hfactored
  have hl {r j : Nat} (hr : r < m) (hj : j < m) :
      (Matrix.ofFn m m fun r j => T (factor r j)).get A r j = T (factor r j) := Matrix.get_ofFn hr hj
  have hentries : c.getD 1 #[] = (Matrix.ofFn m m fun r j => T (factor r j)).entries :=
    hd.entries_eq rfl rfl fun _ _ _ _ => rfl
  refine ⟨_, a, Matrix.ofFn m m fun r j => T (factor r j), _, Program.nesting_cholesky m, ha, hgiven, ?_, rfl, rfl,
    fun hpositive => ⟨fun r hr j hj => ?_, fun r j hrj hj => ?_⟩⟩
  · rw [execute_eq hc hd.shaped, ← hentries]
    rfl
  · have hr : r < m := hr
    rw [← (hfactored hpositive).products r hr j hj]
    apply Finset.sum_congr rfl
    intro k hk
    have hk := Finset.mem_range.1 hk
    rw [hl hr (by omega), hl (by omega) (by omega)]
  · have hj : j < m := hj
    rw [hl (by omega) hj]
    exact (hfactored hpositive).rest r j (by omega) hj (Or.inr hrj)

noncomputable def Arithmetic.reals : Arithmetic ℝ where
  ofConst _ := 0
  ofInt n := n
  binary
    | .add, x, y => x + y
    | .sub, x, y => x - y
    | .mul, x, y => x * y
    | .div, x, y => x / y
    | .min, x, y => min x y
    | .max, x, y => max x y
  neg x := -x
  call
    | .sqrt, x => √x
    | .exp, x => Real.exp x
    | .abs, x => |x|
  round _ x := x
  zero := 0

theorem Arithmetic.exact_reals : Arithmetic.reals.Exact where
  add _ _ := rfl
  sub _ _ := rfl
  mul _ _ := rfl
  div _ _ := rfl
  zero := rfl
  ofConst_zero := rfl

section Reals

open Tensors Interpreter Reference Program.Catalogue

theorem positive_arguments_two {T : Tensors ℝ} (h00 : T (factor 0 0) = 4) (h10 : T (factor 1 0) = 2)
    (h11 : T (factor 1 1) = 5) :
    ∀ x ∈ Tensors.arguments .reals .sqrt (.cholesky 2) ((List.range 2).flatMap rowPoints) T, 0 < x := by
  have hpoints : (List.range 2).flatMap rowPoints = [(4, [((0 : Nat) : Int)]),
      (2, [((1 : Nat) : Int), ((0 : Nat) : Int)]), (3, [((1 : Nat) : Int), ((0 : Nat) : Int)]),
      (4, [((1 : Nat) : Int)])] := rfl
  have hdivide (point : List Int) (T : Tensors ℝ) :
      stepArguments .reals .sqrt (.cholesky 2) (2, point) T = [] := rfl
  have hsquare (point : List Int) (T : Tensors ℝ) :
      stepArguments .reals .sqrt (.cholesky 2) (3, point) T = [] := rfl
  have hround : ∀ x, Arithmetic.reals.round .float64 x = x := fun _ => rfl
  have hroot : √(4 : ℝ) = 2 := by
    rw [show (4 : ℝ) = 2 * 2 by norm_num]
    exact Real.sqrt_mul_self zero_le_two
  have hlast : (0 : ℝ) < 5 - 2 / √4 * (2 / √4) := by
    rw [hroot]
    norm_num
  rw [hpoints]
  -- The first root is two, so the entry below it is one, and one is taken away from five.
  simp only [Tensors.arguments, stepArguments_root, hdivide, hsquare, step_root hround, step_divide hround,
    step_square hround, List.nil_append, List.append_nil, List.cons_append, List.forall_mem_cons]
  simpa [factor_inj, h00, h10, h11, Arithmetic.reals] using hlast

theorem cholesky_factors_two : ∃ roots, ∃ l : Matrix ℝ, (Program.cholesky 2).nesting = .ok roots ∧
    execute .reals (.cholesky 2) roots [("A", #[4, 2, 2, 5])] = .ok [("L", l.entries)] ∧
    l.get .reals 0 0 * l.get .reals 0 0 = 4 ∧ l.get .reals 1 0 * l.get .reals 0 0 = 2 ∧
    l.get .reals 1 0 * l.get .reals 1 0 + l.get .reals 1 1 * l.get .reals 1 1 = 5 ∧ l.get .reals 0 1 = 2 := by
  have hfits : Description.Fits 2 := ⟨by omega, by unfold Decimal.word32Max; omega, by omega⟩
  have hbuild := Description.build_cholesky hfits
  have hround : ∀ x, Arithmetic.reals.round .float64 x = x := fun _ => rfl
  have hi : Inputs.validate (.cholesky 2) [("A", (#[4, 2, 2, 5] : Array ℝ))] = .ok () := rfl
  obtain ⟨roots, a, l, given, hroots, ha, hgiven, hrun, -, -, hfactor⟩ :=
    cholesky_factors .reals Arithmetic.exact_reals hround (fun x hx => Real.mul_self_sqrt hx.le) 2 _ hbuild _ hi
  cases hroots.symm.trans (Program.nesting_cholesky 2)
  obtain rfl : (⟨2, 2, #[4, 2, 2, 5]⟩ : Matrix ℝ) = a := Except.ok.inj ha.matrix
  have hpositive : ∀ x ∈ given, 0 < x := by
    have hvalues : initialContents .reals [("A", #[4, 2, 2, 5])] (Program.cholesky 2).buffers =
        .ok [#[4, 2, 2, 5], Array.replicate 4 0] := rfl
    have hnoted := arguments_eq (f := .sqrt) hbuild (Program.runnable_cholesky hfits) hi hvalues
    have hcopied : ∀ id ∈ squarePoints 2 2 0, id.1 ≠ 4 := forall_squarePoints.2 fun _ _ _ _ => by simp
    rw [Program.pointsAll_choleskyTree, arguments_append, arguments_eq_nil 2 _ hcopied, List.nil_append] at hnoted
    have hentry {i j : Nat} (hi : i < 2) (hj : j < 2) := (run_copy hround 2 (ofContents .reals (.cholesky 2)
      #[#[4, 2, 2, 5], Array.replicate 4 0]) hi hj).trans (ofContents_matrix rfl rfl _ i j)
    cases hgiven.symm.trans hnoted
    exact positive_arguments_two (hentry (by omega) (by omega)) (hentry (by omega) (by omega))
      (hentry (by omega) (by omega))
  obtain ⟨hlower, hupper⟩ := hfactor hpositive
  refine ⟨_, l, hroots, hrun, ?_, ?_, ?_, hupper 0 1 (by omega) (by decide)⟩
  · have h := hlower 0 (by decide) 0 (by omega)
    rw [Finset.sum_range_one] at h
    exact h
  · have h := hlower 1 (by decide) 0 (by omega)
    rw [Finset.sum_range_one] at h
    exact h
  · have h := hlower 1 (by decide) 1 (by omega)
    rw [Finset.sum_range_succ, Finset.sum_range_one] at h
    exact h

end Reals

end LoopNest
