import LoopNest.Word

namespace LoopNest

structure Term where
  coeff : Int
  atom : String
  deriving DecidableEq

structure Affine where
  terms : List Term
  constant : Int
  deriving DecidableEq

namespace Affine

def ofInt (c : Int) : Affine := ⟨[], c⟩

def var (a : String) : Affine := ⟨[⟨1, a⟩], 0⟩

def zero : Affine := ofInt 0

def atoms (f : Affine) : List String := f.terms.map Term.atom

def constant? (f : Affine) : Option Int :=
  if f.terms.isEmpty then some f.constant else none

def termsValue (env : String → Int) : List Term → Int
  | [] => 0
  | t :: ts => t.coeff * env t.atom + termsValue env ts

def value (f : Affine) (env : String → Int) : Int := f.constant + termsValue env f.terms

def IsCanonical (f : Affine) : Prop :=
  f.terms.Pairwise (fun t u => t.atom < u.atom) ∧ ∀ t ∈ f.terms, t.coeff ≠ 0

def insertTerm : List Term → Term → Checked (List Term)
  | [], t => .ok [t]
  | u :: us, t =>
    if t.atom < u.atom then .ok (t :: u :: us)
    else if t.atom = u.atom then do
      let c ← Word.add u.coeff t.coeff
      return ⟨c, u.atom⟩ :: us
    else do
      let rest ← insertTerm us t
      return u :: rest

def collect (ts : List Term) : Checked (List Term) := do
  let sorted ← ts.foldlM insertTerm []
  return sorted.filter (fun t => t.coeff != 0)

def add (f g : Affine) : Checked Affine := do
  let c ← Word.add f.constant g.constant
  let ts ← collect (f.terms ++ g.terms)
  return ⟨ts, c⟩

def scaleTerms (k : Int) : List Term → Checked (List Term)
  | [] => .ok []
  | t :: ts => do
    let c ← Word.mul t.coeff k
    let rest ← scaleTerms k ts
    return ⟨c, t.atom⟩ :: rest

def scale (f : Affine) (k : Int) : Checked Affine := do
  let scaled ← scaleTerms k f.terms
  let c ← Word.mul f.constant k
  let ts ← collect scaled
  return ⟨ts, c⟩

def neg (f : Affine) : Checked Affine := f.scale (-1)

def sub (f g : Affine) : Checked Affine := do
  let h ← g.neg
  f.add h

def addConstant (f : Affine) (k : Int) : Checked Affine := do
  let c ← Word.add f.constant k
  return ⟨f.terms, c⟩

def coefficient (f : Affine) (a : String) : Int :=
  match f.terms.find? (fun t => t.atom == a) with
  | some t => t.coeff
  | none => 0

def mentions (f : Affine) (a : String) : Bool := f.coefficient a != 0

variable {ε : Type}

def bindTerms (m : String → Outcome ε Affine) : Affine → List Term → Outcome ε Affine
  | acc, [] => .ok acc
  | acc, t :: ts => do
    let g ← m t.atom
    let g ← g.scale t.coeff
    let acc ← acc.add g
    bindTerms m acc ts

def tryBind (f : Affine) (m : String → Outcome ε Affine) : Outcome ε Affine :=
  bindTerms m (ofInt f.constant) f.terms

def bindVarTerms (m : String → Affine) : Affine → List Term → Checked Affine
  | acc, [] => .ok acc
  | acc, t :: ts => do
    let g ← (m t.atom).scale t.coeff
    let acc ← acc.add g
    bindVarTerms m acc ts

def bindVars (f : Affine) (m : String → Affine) : Checked Affine :=
  bindVarTerms m (ofInt f.constant) f.terms

def substitute (f : Affine) (a : String) (g : Affine) : Checked Affine :=
  f.bindVars fun x => if x = a then g else var x

def evalTerms (env : String → Option Int) : Int → List Term → Checked (Option Int)
  | total, [] => .ok (some total)
  | total, t :: ts =>
    match env t.atom with
    | none => .ok none
    | some v => do
      let p ← Word.mul t.coeff v
      let total ← Word.add total p
      evalTerms env total ts

def eval (f : Affine) (env : String → Option Int) : Checked (Option Int) :=
  evalTerms env f.constant f.terms

def boundsTerms (env : String → Option (Int × Int)) :
    Int → Int → List Term → Checked (Option (Int × Int))
  | lo, hi, [] => .ok (some (lo, hi))
  | lo, hi, t :: ts =>
    match env t.atom with
    | none => .ok none
    | some (l, h) => do
      -- a negative coefficient is least where its atom is greatest
      let (toLo, toHi) := if t.coeff < 0 then (h, l) else (l, h)
      let p ← Word.mul t.coeff toLo
      let lo ← Word.add lo p
      let q ← Word.mul t.coeff toHi
      let hi ← Word.add hi q
      boundsTerms env lo hi ts

def bounds (f : Affine) (env : String → Option (Int × Int)) : Checked (Option (Int × Int)) :=
  boundsTerms env f.constant f.constant f.terms

theorem value_ofInt (c : Int) (env : String → Int) : (ofInt c).value env = c := by
  simp [value, ofInt, termsValue]

theorem value_var (a : String) (env : String → Int) : (var a).value env = env a := by
  simp [value, var, termsValue]

theorem termsValue_append (env : String → Int) (ts us : List Term) :
    termsValue env (ts ++ us) = termsValue env ts + termsValue env us := by
  induction ts with
  | nil => simp [termsValue]
  | cons t ts ih => simp only [List.cons_append, termsValue, ih]; omega

theorem isCanonical_ofInt (c : Int) : (ofInt c).IsCanonical := by
  simp [IsCanonical, ofInt]

theorem isCanonical_var (a : String) : (var a).IsCanonical := by
  simp [IsCanonical, var]

end Affine

end LoopNest
