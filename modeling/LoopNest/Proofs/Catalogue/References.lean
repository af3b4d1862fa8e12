import LoopNest.Proofs.Catalogue.Matrices
import LoopNest.Proofs.Decimal.Rounding
import Mathlib.Algebra.Field.Rat

/-!
What the programs of the catalogue compute from their initial trees: for every size that the description accepts and
for all validated inputs, whatever the operations on values are, and in a field the matrices of the reference.
-/

namespace LoopNest

namespace Program

theorem Shaped.toList_eq {α : Type} {p : Program} {c : Array (Array α)} (hc : p.Shaped c) :
    c.toList = (List.range p.buffers.length).map fun b => c.getD b #[] := by
  rw [← hc.size]
  apply List.ext_getElem
  · simp
  · intro b hb hb'
    simp [Array.getD_eq_getD_getElem?, Array.length_toList ▸ hb]

end Program

namespace Interpreter

variable {V : Type} {A : Arithmetic V}

theorem getD_of_initialContents {i : Inputs V} {bs : List Buffer} {values : List (Array V)}
    (h : initialContents A i bs = .ok values) {b : Nat} {buffer : Buffer} (hb : bs[b]? = some buffer)
    (hkind : buffer.kind = .input) : i.get? buffer.name = some (values.getD b #[]) := by
  induction bs generalizing values b with
  | nil => cases hb
  | cons d bs ih =>
    have hrest : ∃ v rest, (d.kind = .input → i.get? d.name = some v) ∧ initialContents A i bs = .ok rest ∧
        values = v :: rest := by
      rw [initialContents] at h
      split at h
      · obtain ⟨v, hv, h⟩ := bind_eq_ok.1 h
        obtain ⟨rest, hrest, h⟩ := bind_eq_ok.1 h
        exact ⟨v, rest, fun _ => Outcome.require_eq_ok.1 hv, hrest, (pure_eq_ok.1 h).symm⟩
      · next hinput =>
        obtain ⟨v, -, h⟩ := bind_eq_ok.1 h
        obtain ⟨rest, hrest, h⟩ := bind_eq_ok.1 h
        exact ⟨v, rest, fun hd => absurd hd hinput, hrest, (pure_eq_ok.1 h).symm⟩
    obtain ⟨v, rest, hv, hrest, rfl⟩ := hrest
    cases b with
    | zero =>
      obtain rfl : d = buffer := Option.some.inj hb
      exact hv hkind
    | succ b => exact ih hrest hb

end Interpreter

namespace Reference

variable {V : Type} {A : Arithmetic V} {p : Program} {i : Inputs V}

structure Reads (p : Program) (i : Inputs V) (name : String) (n : Nat) (m : Matrix V) : Prop where
  matrix : matrix p i name = .ok m
  rows : m.rows = n
  cols : m.cols = n

open Program.Catalogue Interpreter Tensors

theorem exists_reads (hi : i.validate p = .ok ()) {values : List (Array V)}
    (hvalues : initialContents A i p.buffers = .ok values) {b n : Nat} {buffer : Buffer}
    (hb : p.buffers[b]? = some buffer) (hkind : buffer.kind = .input) (hshape : buffer.shape = [n, n])
    (hfirst : (p.buffers.find? fun d => d.name == buffer.name) = some buffer) :
    ∃ m, Reads p i buffer.name n m ∧ Holds A b m (ofContents A p values.toArray) := by
  obtain ⟨values', hvalues', hshaped⟩ := exists_initialContents (A := A) hi
  cases hvalues.symm.trans hvalues'
  have hsize : n * n = (values.getD b #[]).size := by
    have h := hshaped.entries b buffer hb
    rw [Buffer.volume, hshape] at h
    simpa [product, Array.getD_eq_getD_getElem?] using h.symm
  refine ⟨⟨n, n, values.getD b #[]⟩, ⟨?_, rfl, rfl⟩, fun i _ j _ => ofContents_matrix hb hshape values i j⟩
  rw [matrix, hfirst, Outcome.require_some, ok_bind, getD_of_initialContents hvalues hb hkind, Outcome.require_some,
    ok_bind, hshape]
  simp only [hsize, if_true]
  rfl

theorem getD_of_holds {c : Contents V} {T : Tensors V} (hd : Describes A p T c) {b : Nat} {buffer : Buffer}
    (hb : p.buffers[b]? = some buffer) {rows cols : Nat} {f : Nat → Nat → V}
    (hshape : buffer.shape = [rows, cols]) (h : Holds A b (Matrix.ofFn rows cols f) T) :
    c.getD b #[] = (Matrix.ofFn rows cols f).entries :=
  hd.entries_eq hb hshape fun i hi j hj => (h i hi j hj).trans (Matrix.get_ofFn hi hj)

theorem execute_eq {roots : List Node} {c : Contents V} (hc : runTree A p roots i = .ok c) (hshaped : p.Shaped c) :
    execute A p roots i = .ok ((p.buffers.zip ((List.range p.buffers.length).map fun b => c.getD b #[])).filterMap
      fun (b, values) => if b.kind = .input then none else some (b.name, values)) := by
  rw [execute, hc, ok_bind, results, hshaped.toList_eq]
  rfl

section Products

variable {n : Nat} (hround : ∀ x, A.round .float64 x = x) (hn : Description.Fits n)
include hround hn

theorem execute_matmul (hi : i.validate (.matmul n) = .ok ()) :
    ∃ a b, Reads (.matmul n) i "A" n a ∧ Reads (.matmul n) i "B" n b ∧
      execute A (.matmul n) (Program.matmulTree n) i = .ok [("C", (Matrix.product A a b).entries)] := by
  obtain ⟨values, c, hvalues, hc, hd⟩ :=
    exists_runTree (A := A) (Description.build_matmul hn) (Program.runnable_matmul hn) hi
  rw [Program.pointsAll_matmulTree] at hd
  obtain ⟨a, ha, hholdsA⟩ := exists_reads hi hvalues (b := 0) rfl rfl rfl rfl
  obtain ⟨b, hb, hholdsB⟩ := exists_reads hi hvalues (b := 1) rfl rfl rfl rfl
  have hproduct := assigns_product (p := .matmul n) hround rfl (by decide) (by decide) 0 1 rfl rfl
    ha.rows ha.cols hb.rows hb.cols hholdsA hholdsB
  have hC : c.getD 2 #[] = (Matrix.product A a b).entries :=
    getD_of_holds hd rfl (by rw [ha.rows, hb.cols]; rfl) hproduct.holds
  refine ⟨a, b, ha, hb, ?_⟩
  rw [execute_eq hc hd.shaped, ← hC]
  rfl

theorem execute_twoMatmul (hi : i.validate (.twoMatmul n) = .ok ()) :
    ∃ a b d, Reads (.twoMatmul n) i "A" n a ∧ Reads (.twoMatmul n) i "B" n b ∧ Reads (.twoMatmul n) i "C" n d ∧
      execute A (.twoMatmul n) (Program.twoMatmulTree n) i =
        .ok [("tmp", (Matrix.product A a b).entries), ("D", (Matrix.product A (Matrix.product A a b) d).entries)] := by
  obtain ⟨values, c, hvalues, hc, hd⟩ :=
    exists_runTree (A := A) (Description.build_twoMatmul hn) (Program.runnable_twoMatmul hn) hi
  rw [Program.pointsAll_twoMatmulTree, List.append_assoc, run_append] at hd
  obtain ⟨a, ha, hholdsA⟩ := exists_reads hi hvalues (b := 0) rfl rfl rfl rfl
  obtain ⟨b, hb, hholdsB⟩ := exists_reads hi hvalues (b := 1) rfl rfl rfl rfl
  obtain ⟨d, hdd, hholdsC⟩ := exists_reads hi hvalues (b := 2) rfl rfl rfl rfl
  have htmp := assigns_product (p := .twoMatmul n) (c := 3) hround rfl (by decide) (by decide) 0 1 rfl rfl
    ha.rows ha.cols hb.rows hb.cols hholdsA hholdsB
  have hfirst : (Matrix.product A a b).rows = n ∧ (Matrix.product A a b).cols = n := ⟨ha.rows, hb.cols⟩
  have hlast := assigns_product (p := .twoMatmul n) (c := 4) hround rfl (by decide) (by decide) 2 3 rfl rfl
    hfirst.1 hfirst.2 hdd.rows hdd.cols htmp.holds (htmp.keeps (by decide) hholdsC)
  have hT : c.getD 3 #[] = (Matrix.product A a b).entries :=
    getD_of_holds hd rfl (by rw [ha.rows, hb.cols]; rfl) (hlast.keeps (by decide) htmp.holds)
  have hD : c.getD 4 #[] = (Matrix.product A (Matrix.product A a b) d).entries :=
    getD_of_holds hd rfl (by rw [hfirst.1, hdd.cols]; rfl) hlast.holds
  refine ⟨a, b, d, ha, hb, hdd, ?_⟩
  rw [execute_eq hc hd.shaped, ← hT, ← hD]
  rfl

end Products

theorem execute_blur {n : Nat} (hpos : 0 < n) (hn : Description.Fits (n + 2)) (hi : i.validate (.blur n) = .ok ()) :
    ∃ m, Reads (.blur n) i "input" (n + 2) m ∧
      execute A (.blur n) (Program.blurTree n) i =
        .ok [("bx", (Matrix.blurX A m).entries), ("by", (Matrix.blurY A (Matrix.blurX A m)).entries)] := by
  obtain ⟨values, c, hvalues, hc, hd⟩ :=
    exists_runTree (A := A) (Description.build_blur hpos hn) (Program.runnable_blur hpos hn) hi
  rw [Program.pointsAll_blurTree, run_append] at hd
  obtain ⟨m, hm, hholds⟩ := exists_reads hi hvalues (b := 0) rfl rfl rfl rfl
  have hx := assigns_blurX hm.rows hm.cols hholds
  have hshape : (Matrix.blurX A m).rows = n + 2 ∧ (Matrix.blurX A m).cols = n :=
    ⟨hm.rows, by change m.cols - 2 = n; rw [hm.cols, Nat.add_sub_cancel]⟩
  have hy := assigns_blurY hshape.1 hshape.2 hx.holds
  have hbx : c.getD 1 #[] = (Matrix.blurX A m).entries :=
    getD_of_holds hd rfl (by rw [hm.rows, hm.cols]; rfl) (hy.keeps (by decide) hx.holds)
  have hby : c.getD 2 #[] = (Matrix.blurY A (Matrix.blurX A m)).entries :=
    getD_of_holds hd rfl (by rw [hshape.1, hshape.2]; rfl) hy.holds
  refine ⟨m, hm, ?_⟩
  rw [execute_eq hc hd.shaped, ← hbx, ← hby]
  rfl

section Exact

variable [Field V] (h : A.Exact) {ops : MatrixOperations V} (hops : ops.Usual A) {n : Nat} {a b c : Matrix V}
include h hops

theorem outputs_matmul (ha : Reads (.matmul n) i "A" n a) (hb : Reads (.matmul n) i "B" n b) :
    outputs A (.matmul n) i ops = .ok [("C", Matrix.product A a b)] := by
  change (do
    let a ← matrix (.matmul n) i "A"
    let b ← matrix (.matmul n) i "B"
    let c ← ops.dot a b
    asOutput (.matmul n) "C" c) = _
  rw [ha.matrix, ok_bind, hb.matrix, ok_bind, hops.dot_eq_product h (ha.cols.trans hb.rows.symm)]
  rfl

theorem outputs_twoMatmul (hone : A.ofConst 1.0 = 1) (ha : Reads (.twoMatmul n) i "A" n a)
    (hb : Reads (.twoMatmul n) i "B" n b) (hc : Reads (.twoMatmul n) i "C" n c) :
    outputs A (.twoMatmul n) i ops = .ok [("D", Matrix.product A (Matrix.product A a b) c)] := by
  change (do
    let a ← matrix (.twoMatmul n) i "A"
    let b ← matrix (.twoMatmul n) i "B"
    let c ← matrix (.twoMatmul n) i "C"
    let tmp ← ops.dot a b
    let d ← ops.generalProduct (A.ofConst 1.0) tmp c (A.ofConst 0.0) (.zeros A tmp.rows c.cols)
    asOutput (.twoMatmul n) "D" d) = _
  have hinner : (Matrix.product A a b).cols = c.rows := hb.cols.trans hc.rows.symm
  rw [ha.matrix, ok_bind, hb.matrix, ok_bind, hc.matrix, ok_bind,
    hops.dot_eq_product h (ha.cols.trans hb.rows.symm), lift_ok, ok_bind,
    hops.generalProduct_eq_product h hone hinner]
  rfl

theorem outputs_blur (ha : Reads (.blur n) i "input" (n + 2) a) :
    outputs A (.blur n) i ops = .ok [("by", Matrix.blurY A (Matrix.blurX A a))] := by
  change (do
    let m ← matrix (.blur n) i "input"
    let m ← blurred A ops (.blur n) m
    asOutput (.blur n) "by" m) = _
  have hlarge : ¬ (decide (a.rows < 2) || decide (a.cols < 2)) = true := by
    rw [ha.rows, ha.cols]
    simp
  rw [ha.matrix, ok_bind, blurred, if_neg hlarge, ← hops.blur_eq h]
  rfl

end Exact

end Reference

open Reference Interpreter in
/-- The initial trees leave the matrices of the programs in the buffers that are no inputs, each entry put together in
the order of the program. Where the operations are those of a field and the library for matrices takes the usual sums,
these are the outputs of the reference. -/
theorem initial_trees_compute_references {V : Type} (A : Arithmetic V) (hround : ∀ x, A.round .float64 x = x)
    (n : Int) :
    (∀ p i, (Description.matmul n).build = .ok p → i.validate p = .ok () →
      ∃ roots a b, p.nesting = .ok roots ∧ Reads p i "A" n.toNat a ∧ Reads p i "B" n.toNat b ∧
        execute A p roots i = .ok [("C", (Matrix.product A a b).entries)] ∧
        ∀ [Field V], A.Exact → Matrix.product A a b = Matrix.sums A a b ∧
          ∀ ops : MatrixOperations V, ops.Usual A → outputs A p i ops = .ok [("C", Matrix.product A a b)]) ∧
    (∀ p i, (Description.twoMatmul n).build = .ok p → i.validate p = .ok () →
      ∃ roots a b c, p.nesting = .ok roots ∧ Reads p i "A" n.toNat a ∧ Reads p i "B" n.toNat b ∧
        Reads p i "C" n.toNat c ∧
        execute A p roots i = .ok [("tmp", (Matrix.product A a b).entries),
          ("D", (Matrix.product A (Matrix.product A a b) c).entries)] ∧
        ∀ [Field V], A.Exact → Matrix.product A (Matrix.product A a b) c = Matrix.sums A (Matrix.sums A a b) c ∧
          (A.ofConst 1.0 = 1 → ∀ ops : MatrixOperations V, ops.Usual A →
            outputs A p i ops = .ok [("D", Matrix.product A (Matrix.product A a b) c)])) ∧
    (∀ p i, (Description.blur n).build = .ok p → i.validate p = .ok () →
      ∃ roots m, p.nesting = .ok roots ∧ Reads p i "input" n.toNat m ∧
        execute A p roots i = .ok [("bx", (Matrix.blurX A m).entries),
          ("by", (Matrix.blurY A (Matrix.blurX A m)).entries)] ∧
        ∀ [Field V], A.Exact → ∀ ops : MatrixOperations V, ops.Usual A →
          outputs A p i ops = .ok [("by", Matrix.blurY A (Matrix.blurX A m))]) := by
  refine ⟨fun p i hp hi => ?_, fun p i hp hi => ?_, fun p i hp hi => ?_⟩
  · obtain ⟨m, hm, hfits⟩ := Description.fits_of_build hp (n := n) (k := 0) rfl rfl List.mem_cons_self rfl
    obtain rfl : n = m := by omega
    cases hp.symm.trans (Description.build_matmul hfits)
    obtain ⟨a, b, ha, hb, hrun⟩ := execute_matmul hround hfits hi
    refine ⟨_, a, b, Program.nesting_matmul m, ha, hb, hrun, fun hexact => ?_⟩
    exact ⟨Matrix.product_eq_sums hexact a b, fun ops hops => outputs_matmul hexact hops ha hb⟩
  · obtain ⟨m, hm, hfits⟩ := Description.fits_of_build hp (n := n) (k := 0) rfl rfl List.mem_cons_self rfl
    obtain rfl : n = m := by omega
    cases hp.symm.trans (Description.build_twoMatmul hfits)
    obtain ⟨a, b, c, ha, hb, hc, hrun⟩ := execute_twoMatmul hround hfits hi
    refine ⟨_, a, b, c, Program.nesting_twoMatmul m, ha, hb, hc, hrun, fun hexact =>
      ⟨?_, fun hone ops hops => outputs_twoMatmul hexact hops hone ha hb hc⟩⟩
    rw [Matrix.product_eq_sums hexact, Matrix.product_eq_sums hexact]
  · obtain ⟨m, hm, hfits⟩ := Description.fits_of_build hp (n := n) (k := 0) rfl rfl List.mem_cons_self rfl
    obtain ⟨l, hl, hinner⟩ := Description.fits_of_build hp (n := n) (k := -2) rfl rfl
      (List.mem_cons_of_mem _ (List.mem_cons_of_mem _ List.mem_cons_self)) rfl
    -- an inner buffer of no rows is refused, so the size is at least three
    have hpos := hinner.positive
    obtain rfl : m = l + 2 := by omega
    obtain rfl : n = (l + 2 : Nat) := by omega
    cases hp.symm.trans (Description.build_blur hpos hfits)
    obtain ⟨m, hm, hrun⟩ := execute_blur (A := A) hpos hfits hi
    exact ⟨_, m, Program.nesting_blur l, hm, hrun, fun hexact ops hops => outputs_blur hexact hops hm⟩

section Fractions

open Reference Interpreter

theorem Arithmetic.exact_fractions : Arithmetic.fractions.Exact where
  add _ _ := rfl
  sub _ _ := rfl
  mul _ _ := rfl
  div _ _ := rfl
  zero := rfl
  ofConst_zero := Arithmetic.ofConst_fractions.1

theorem initial_trees_compute_references_small :
    (∃ roots, (Program.matmul 2).nesting = .ok roots ∧
      execute .fractions (.matmul 2) roots [("A", #[1, 2, 3, 4]), ("B", #[1, 1, 0, 1])] =
        .ok [("C", #[1, 3, 3, 7])] ∧
      outputs .fractions (.matmul 2) [("A", #[1, 2, 3, 4]), ("B", #[1, 1, 0, 1])] (.folds .fractions) =
        .ok [("C", ⟨2, 2, #[1, 3, 3, 7]⟩)]) ∧
    (∃ roots, (Program.twoMatmul 1).nesting = .ok roots ∧
      execute .fractions (.twoMatmul 1) roots [("A", #[2]), ("B", #[3]), ("C", #[5])] =
        .ok [("tmp", #[6]), ("D", #[30])] ∧
      outputs .fractions (.twoMatmul 1) [("A", #[2]), ("B", #[3]), ("C", #[5])] (.folds .fractions) =
        .ok [("D", ⟨1, 1, #[30]⟩)]) ∧
    ∃ roots, (Program.blur 1).nesting = .ok roots ∧
      execute .fractions (.blur 1) roots [("input", #[1, 2, 3, 4, 5, 6, 7, 8, 9])] =
        .ok [("bx", #[2, 5, 8]), ("by", #[5])] ∧
      outputs .fractions (.blur 1) [("input", #[1, 2, 3, 4, 5, 6, 7, 8, 9])] (.folds .fractions) =
        .ok [("by", ⟨1, 1, #[5]⟩)] := by
  have hfits (n : Nat) (hn : 0 < n ∧ n ≤ 3) : Description.Fits n := by
    have hsquare : n * n ≤ 3 * 3 := Nat.mul_le_mul hn.2 hn.2
    exact ⟨hn.1, by unfold Decimal.word32Max; omega, by omega⟩
  have hexact := Arithmetic.exact_fractions
  have husual := MatrixOperations.usual_folds hexact
  refine ⟨?_, ?_, ?_⟩
  · obtain ⟨roots, a, b, hroots, ha, hb, hrun, hreference⟩ :=
      (initial_trees_compute_references .fractions (fun _ => rfl) 2).1 (.matmul 2)
        [("A", #[1, 2, 3, 4]), ("B", #[1, 1, 0, 1])] (Description.build_matmul (hfits 2 (by decide))) rfl
    obtain rfl : (⟨2, 2, #[1, 2, 3, 4]⟩ : Matrix Rat) = a := Except.ok.inj ha.matrix
    obtain rfl : (⟨2, 2, #[1, 1, 0, 1]⟩ : Matrix Rat) = b := Except.ok.inj hb.matrix
    have hproduct : Matrix.product .fractions ⟨2, 2, #[1, 2, 3, 4]⟩ ⟨2, 2, #[1, 1, 0, 1]⟩ =
        ⟨2, 2, #[1, 3, 3, 7]⟩ := by
      rw [Matrix.product, Matrix.ofFn, Matrix.mk.injEq]
      exact ⟨rfl, rfl, by decide +kernel⟩
    rw [hproduct] at hrun hreference
    exact ⟨roots, hroots, hrun, (hreference hexact).2 _ husual⟩
  · obtain ⟨roots, a, b, c, hroots, ha, hb, hc, hrun, hreference⟩ :=
      (initial_trees_compute_references .fractions (fun _ => rfl) 1).2.1 (.twoMatmul 1)
        [("A", #[2]), ("B", #[3]), ("C", #[5])] (Description.build_twoMatmul (hfits 1 (by decide))) rfl
    obtain rfl : (⟨1, 1, #[2]⟩ : Matrix Rat) = a := Except.ok.inj ha.matrix
    obtain rfl : (⟨1, 1, #[3]⟩ : Matrix Rat) = b := Except.ok.inj hb.matrix
    obtain rfl : (⟨1, 1, #[5]⟩ : Matrix Rat) = c := Except.ok.inj hc.matrix
    have hfirst : Matrix.product .fractions ⟨1, 1, #[2]⟩ ⟨1, 1, #[3]⟩ = ⟨1, 1, #[6]⟩ := by
      rw [Matrix.product, Matrix.ofFn, Matrix.mk.injEq]
      exact ⟨rfl, rfl, by decide +kernel⟩
    have hsecond : Matrix.product .fractions ⟨1, 1, #[6]⟩ ⟨1, 1, #[5]⟩ = ⟨1, 1, #[30]⟩ := by
      rw [Matrix.product, Matrix.ofFn, Matrix.mk.injEq]
      exact ⟨rfl, rfl, by decide +kernel⟩
    rw [hfirst, hsecond] at hrun hreference
    exact ⟨roots, hroots, hrun, (hreference hexact).2 Arithmetic.ofConst_fractions.2.1 _ husual⟩
  · obtain ⟨roots, m, hroots, hm, hrun, hreference⟩ :=
      (initial_trees_compute_references .fractions (fun _ => rfl) 3).2.2 (.blur 1)
        [("input", #[1, 2, 3, 4, 5, 6, 7, 8, 9])] (Description.build_blur (by decide) (hfits 3 (by decide))) rfl
    obtain rfl : (⟨3, 3, #[1, 2, 3, 4, 5, 6, 7, 8, 9]⟩ : Matrix Rat) = m := Except.ok.inj hm.matrix
    have hrows : Matrix.blurX .fractions ⟨3, 3, #[1, 2, 3, 4, 5, 6, 7, 8, 9]⟩ = ⟨3, 1, #[2, 5, 8]⟩ := by
      rw [Matrix.blurX, Matrix.ofFn, Matrix.mk.injEq]
      exact ⟨rfl, rfl, by decide +kernel⟩
    have hcols : Matrix.blurY .fractions ⟨3, 1, #[2, 5, 8]⟩ = ⟨1, 1, #[5]⟩ := by
      rw [Matrix.blurY, Matrix.ofFn, Matrix.mk.injEq]
      exact ⟨rfl, rfl, by decide +kernel⟩
    rw [hrows, hcols] at hrun hreference
    exact ⟨roots, hroots, hrun, hreference hexact _ husual⟩

end Fractions

end LoopNest
