import LoopNest.C.Kernel
import LoopNest.Proofs.Tree.Points

namespace LoopNest.C

def total : List Int → Int
  | [] => 0
  | x :: xs => x + total xs

@[simp] theorem total_nil : total [] = 0 := rfl

@[simp] theorem total_cons (x : Int) (xs : List Int) : total (x :: xs) = x + total xs := rfl

@[simp] theorem total_append (xs ys : List Int) : total (xs ++ ys) = total xs + total ys := by
  induction xs with
  | nil => simp
  | cons x xs ih => simp [ih, Int.add_assoc]

structure Composes (names : List String) (P : Nat → Expr → (Valuation → Int) → Prop) : Prop where
  mono {j k : Nat} {e : Expr} {x : Valuation → Int} (h : P k e x) (hjk : j ≤ k) : P j e x
  int (n : Int) : P 4 (.int n) fun _ => n
  var {a : String} (ha : a ∈ names) : P 5 (.var (variableName a)) fun env => env a
  neg {a : String} (ha : a ∈ names) : P 4 (.neg (.var (variableName a))) fun env => -env a
  paren {k : Nat} {e : Expr} {x : Valuation → Int} (h : P k e x) : P 5 (.paren e) x
  mul {l r : Expr} {x y : Valuation → Int} (hl : P 3 l x) (hr : P 4 r y) :
    P 3 (.binary "*" l r) fun env => x env * y env
  add {l r : Expr} {x y : Valuation → Int} (hl : P 2 l x) (hr : P 3 r y) :
    P 2 (.binary "+" l r) fun env => x env + y env

def grouped : List Expr → Expr
  | [part] => part
  | parts => .paren (.sum parts)

def termValue (t : Term) (env : Valuation) : Int := t.coeff * env t.atom

theorem termsValue_eq_total (env : Valuation) (ts : List Term) :
    Affine.termsValue env ts = total ((ts.map termValue).map fun x => x env) := by
  induction ts with
  | nil => rfl
  | cons t ts ih => rw [Affine.termsValue, ih, List.map_cons, List.map_cons, total_cons, termValue]

namespace Composes

variable {names : List String} {P : Nat → Expr → (Valuation → Int) → Prop} (hP : Composes names P)
include hP

theorem foldl {es : List Expr} {xs : List (Valuation → Int)} (h : List.Forall₂ (P 3) es xs) {e : Expr}
    {x : Valuation → Int} (he : P 2 e x) :
    P 2 (es.foldl (.binary "+") e) fun env => x env + total (xs.map fun x => x env) := by
  induction h generalizing e x with
  | nil => simpa using he
  | cons hy _ ih => simpa [Int.add_assoc] using ih (hP.add he hy)

theorem sum {es : List Expr} {xs : List (Valuation → Int)} (h : List.Forall₂ (P 3) es xs) :
    P 2 (.sum es) fun env => total (xs.map fun x => x env) := by
  cases h with
  | nil => exact hP.mono (hP.int 0) (by decide)
  | cons he hes =>
    simp only [List.map_cons, total_cons]
    exact hP.foldl hes (hP.mono he (by decide))

theorem grouped {parts : List Expr} {xs : List (Valuation → Int)} (h : List.Forall₂ (P 3) parts xs) :
    P 3 (grouped parts) fun env => total (xs.map fun x => x env) := by
  have hparen := hP.mono (j := 3) (hP.paren (hP.sum h)) (by decide)
  cases h with
  | nil => exact hparen
  | cons hx hxs =>
    cases hxs with
    | nil => simpa [C.grouped] using hx
    | cons => exact hparen

theorem ofTerm {t : Term} (ht : t.atom ∈ names) : P 3 (ofTerm t) (termValue t) := by
  unfold C.ofTerm
  split_ifs with hone hminus
  · have hvalue : termValue t = fun env => env t.atom := funext fun env => by simp [termValue, hone]
    rw [hvalue]
    exact hP.mono (hP.var ht) (by decide)
  · have hvalue : termValue t = fun env => -env t.atom := funext fun env => by simp [termValue, hminus]
    rw [hvalue]
    exact hP.mono (hP.neg ht) (by decide)
  · exact hP.mul (hP.mono (hP.int t.coeff) (by decide)) (hP.mono (hP.var ht) (by decide))

theorem ofAffine {f : Affine} (hf : f.Over names) : P 3 (ofAffine f) f.value := by
  have hterms : List.Forall₂ (P 3) (f.terms.map C.ofTerm) (f.terms.map termValue) :=
    List.forall₂_map_left_iff.2 (List.forall₂_map_right_iff.2
      (List.forall₂_same.2 fun t ht => hP.ofTerm (Affine.over_iff.1 hf t ht)))
  have hconstant : List.Forall₂ (P 3) [.int f.constant] [fun _ => f.constant] :=
    .cons (hP.mono (hP.int f.constant) (by decide)) .nil
  -- the constant is written unless it is zero beside other terms
  by_cases hparts : (f.constant ≠ 0 || (f.terms.map C.ofTerm).isEmpty) = true
  · have hvalue : f.value = fun env =>
        total ((f.terms.map termValue ++ [fun _ => f.constant]).map fun (x : Valuation → Int) => x env) := by
      funext env
      simp [Affine.value, termsValue_eq_total, Int.add_comm]
    have htext : C.ofAffine f = C.grouped (f.terms.map C.ofTerm ++ [.int f.constant]) := by
      simp only [C.ofAffine, if_pos hparts]
      rfl
    rw [htext, hvalue]
    exact hP.grouped (List.rel_append hterms hconstant)
  · have hvalue : f.value = fun env => total ((f.terms.map termValue).map fun x => x env) := by
      have hzero : f.constant = 0 := by simp_all
      funext env
      simp [Affine.value, termsValue_eq_total, hzero]
    have htext : C.ofAffine f = C.grouped (f.terms.map C.ofTerm) := by
      simp only [C.ofAffine, if_neg hparts]
      rfl
    rw [htext, hvalue]
    exact hP.grouped hterms

theorem scaled {f : Affine} (hf : f.Over names) (stride : Nat) :
    P 3 (scaled (C.ofAffine f) stride) fun env => f.value env * stride := by
  have hform := hP.ofAffine hf
  unfold C.scaled
  split_ifs with hone
  · simpa [hone] using hform
  · exact hP.mul hform (hP.int stride)

end Composes

end LoopNest.C
