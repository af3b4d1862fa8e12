import LoopNest.Proofs.C.Accesses

/-!
What a machine makes of C expressions. A variable, a constant and an element of an array have types of their own, an
operator computes in the wider of the types of its operands, and casts and library functions give doubles. Integers
are exact; what overflows is left open.
-/

namespace LoopNest.C

namespace CType

def rank : CType → Nat
  | int => 0
  | long => 1
  | float => 2
  | double => 3

def common (s t : CType) : CType := if s.rank ≤ t.rank then t else s

def ofLiteral (n : Int) : CType := if n.natAbs < 2147483648 then int else long

end CType

/-- The floats and doubles of a machine. A double operation of the library or of an operator is one of `double`. -/
structure Machine (F D : Type) where
  float : Operator → F → F → F
  negFloat : F → F
  floatOfInt : Int → F
  widen : F → D
  double : Arithmetic D

inductive Value (F D : Type) where
  | int (n : Int)
  | long (n : Int)
  | float (x : F)
  | double (x : D)

abbrev Memory (F D : Type) : Type := String → Int → Option (Value F D)

def operator? (symbol : String) : Option Operator :=
  [Operator.add, .sub, .mul, .div].find? fun op => op.symbol == symbol

def integerBinary : Operator → Int → Int → Option Int
  | .add, m, n => some (m + n)
  | .sub, m, n => some (m - n)
  | .mul, m, n => some (m * n)
  | .div, m, n => if n = 0 then none else some (m.tdiv n)
  | _, _, _ => none

variable {F D : Type}

namespace Value

def type : Value F D → CType
  | int _ => .int
  | long _ => .long
  | float _ => .float
  | double _ => .double

def integer? : Value F D → Option Int
  | int n => some n
  | long n => some n
  | float _ => none
  | double _ => none

def ofInteger (t : CType) (n : Int) : Value F D := if t = .int then int n else long n

variable (M : Machine F D)

def toDouble : Value F D → D
  | int n => M.double.ofInt n
  | long n => M.double.ofInt n
  | float x => M.widen x
  | double x => x

def toFloat? : Value F D → Option F
  | int n => some (M.floatOfInt n)
  | long n => some (M.floatOfInt n)
  | float x => some x
  | double _ => none

def neg : Value F D → Value F D
  | int n => int (-n)
  | long n => long (-n)
  | float x => float (M.negFloat x)
  | double x => double (M.double.neg x)

def binary (op : Operator) (a b : Value F D) : Option (Value F D) :=
  match a.type.common b.type with
  | .double => some (double (M.double.binary op (a.toDouble M) (b.toDouble M)))
  | .float => do
    let x ← a.toFloat? M
    let y ← b.toFloat? M
    return float (M.float op x y)
  | t => do
    let m ← a.integer?
    let n ← b.integer?
    let r ← integerBinary op m n
    return ofInteger t r

end Value

def libraryCall? (M : Machine F D) (f : String) : List D → Option D
  | [x] => ([Intrinsic.sqrt, .exp, .abs].find? fun g => g.name == f).map fun g => M.double.call g x
  | [x, y] =>
    if f = "fmin" then some (M.double.binary .min x y)
    else if f = "fmax" then some (M.double.binary .max x y)
    else none
  | _ => none

namespace Expr

section Values

variable (M : Machine F D) (scope : List (String × Int)) (memory : Memory F D)

mutual

def eval : Expr → Option (Value F D)
  | int n => some (.ofInteger (.ofLiteral n) n)
  | double x => some (.double (M.double.ofConst x))
  | var v => (scope.lookup v).map .long
  | neg e => e.eval.map (Value.neg M)
  | binary symbol l r => do
    let op ← operator? symbol
    let a ← l.eval
    let b ← r.eval
    a.binary M op b
  | paren e => e.eval
  | call f args => do
    let xs ← evalAll args
    let x ← libraryCall? M f xs
    return .double x
  | subscript array index => do
    let v ← index.eval
    let n ← v.integer?
    memory array n
  | cast type e => do
    let v ← e.eval
    if type = "double" then return .double (v.toDouble M) else none

def evalAll : List Expr → Option (List D)
  | [] => some []
  | e :: es => do
    let v ← e.eval
    let xs ← evalAll es
    return v.toDouble M :: xs

end

end Values

section Types

variable (declared : String → Option CType)

def type? : Expr → Option CType
  | int n => some (.ofLiteral n)
  | double _ => some .double
  | var _ => some .long
  | neg e => e.type?
  | binary _ l r => do
    let s ← l.type?
    let t ← r.type?
    return s.common t
  | paren e => e.type?
  | call _ _ => some .double
  | subscript array _ => declared array
  | cast type _ => CType.named? type

mutual

def computedIn : Expr → List (Option CType)
  | int _ => []
  | double _ => []
  | var _ => []
  | neg e => e.computedIn ++ [e.type? declared]
  | binary symbol l r => l.computedIn ++ r.computedIn ++ [(binary symbol l r).type? declared]
  | paren e => e.computedIn
  | call _ args => computedInAll args ++ [some .double]
  | subscript _ _ => []
  | cast _ _ => []

def computedInAll : List Expr → List (Option CType)
  | [] => []
  | e :: es => e.computedIn ++ computedInAll es

end

end Types

end Expr

namespace Value

variable (M : Machine F D)

@[simp] theorem type_ofInteger_literal (n : Int) : (ofInteger (.ofLiteral n) n : Value F D).type = .ofLiteral n := by
  unfold ofInteger CType.ofLiteral
  split_ifs <;> simp_all [type]

@[simp] theorem integer?_ofInteger (t : CType) (n : Int) : (ofInteger t n : Value F D).integer? = some n := by
  unfold ofInteger
  split_ifs <;> rfl

@[simp] theorem type_neg (v : Value F D) : (v.neg M).type = v.type := by cases v <;> rfl

theorem type_binary {op : Operator} {a b v : Value F D} (h : a.binary M op b = some v) :
    v.type = a.type.common b.type := by
  unfold binary at h
  split at h
  · next hdouble =>
    cases h
    exact hdouble.symm
  · next hfloat =>
    obtain ⟨x, -, h⟩ := Option.bind_eq_some_iff.1 h
    obtain ⟨y, -, h⟩ := Option.bind_eq_some_iff.1 h
    cases h
    exact hfloat.symm
  · next t hnotDouble hnotFloat =>
    obtain ⟨m, -, h⟩ := Option.bind_eq_some_iff.1 h
    obtain ⟨n, -, h⟩ := Option.bind_eq_some_iff.1 h
    obtain ⟨r, -, h⟩ := Option.bind_eq_some_iff.1 h
    cases h
    generalize a.type.common b.type = t at hnotDouble hnotFloat
    cases t with
    | int => rfl
    | long => rfl
    | float => exact absurd rfl hnotFloat
    | double => exact absurd rfl hnotDouble

theorem binary_of_double {op : Operator} {a b : Value F D} (h : a.type.common b.type = .double) :
    a.binary M op b = some (double (M.double.binary op (a.toDouble M) (b.toDouble M))) := by
  simp only [binary, h]

theorem exists_binary_integer {op : Operator} {a b : Value F D} {m n r : Int} (hm : a.integer? = some m)
    (hn : b.integer? = some n) (hop : integerBinary op m n = some r) :
    ∃ v, a.binary M op b = some v ∧ v.integer? = some r := by
  have htype : ∃ t, a.binary M op b = (integerBinary op m n).bind fun r => some (ofInteger t r) := by
    cases a with
    | float | double => cases hm
    | int | long =>
      cases b with
      | float | double => cases hn
      | int | long =>
        cases hm
        cases hn
        exact ⟨_, rfl⟩
  obtain ⟨t, ht⟩ := htype
  exact ⟨.ofInteger t r, by rw [ht, hop, Option.bind_some], integer?_ofInteger t r⟩

end Value

namespace Expr

variable {M : Machine F D} {scope : List (String × Int)} {memory : Memory F D} {e l r : Expr} {a b v : Value F D}

theorem eval_binary {symbol : String} {op : Operator} (hsymbol : operator? symbol = some op)
    (hl : l.eval M scope memory = some a) (hr : r.eval M scope memory = some b) :
    (binary symbol l r).eval M scope memory = a.binary M op b := by
  rw [eval, hsymbol, hl, hr]
  rfl

theorem exists_of_eval_binary {symbol : String} (h : (binary symbol l r).eval M scope memory = some v) :
    ∃ op a b, operator? symbol = some op ∧ l.eval M scope memory = some a ∧ r.eval M scope memory = some b ∧
      a.binary M op b = some v := by
  obtain ⟨op, hop, h⟩ := Option.bind_eq_some_iff.1 h
  obtain ⟨a, ha, h⟩ := Option.bind_eq_some_iff.1 h
  obtain ⟨b, hb, h⟩ := Option.bind_eq_some_iff.1 h
  exact ⟨op, a, b, hop, ha, hb, h⟩

theorem eval_call {f : String} {args : List Expr} {xs : List D} {x : D}
    (hargs : evalAll M scope memory args = some xs) (hf : libraryCall? M f xs = some x) :
    (call f args).eval M scope memory = some (.double x) := by
  rw [eval, hargs, Option.bind_eq_bind, Option.bind_some, hf]
  rfl

theorem exists_of_eval_call {f : String} {args : List Expr} (h : (call f args).eval M scope memory = some v) :
    ∃ xs x, evalAll M scope memory args = some xs ∧ libraryCall? M f xs = some x ∧ v = .double x := by
  obtain ⟨xs, hxs, h⟩ := Option.bind_eq_some_iff.1 h
  obtain ⟨x, hx, h⟩ := Option.bind_eq_some_iff.1 h
  exact ⟨xs, x, hxs, hx, (Option.some.inj h).symm⟩

theorem exists_of_evalAll_cons {es : List Expr} {xs : List D} (h : evalAll M scope memory (e :: es) = some xs) :
    ∃ a ys, e.eval M scope memory = some a ∧ evalAll M scope memory es = some ys ∧ xs = a.toDouble M :: ys := by
  obtain ⟨a, ha, h⟩ := Option.bind_eq_some_iff.1 h
  obtain ⟨ys, hys, h⟩ := Option.bind_eq_some_iff.1 h
  exact ⟨a, ys, ha, hys, (Option.some.inj h).symm⟩

theorem evalAll_singleton (he : e.eval M scope memory = some v) :
    evalAll M scope memory [e] = some [v.toDouble M] := by
  rw [evalAll, he, evalAll]
  rfl

theorem evalAll_pair (hl : l.eval M scope memory = some a) (hr : r.eval M scope memory = some b) :
    evalAll M scope memory [l, r] = some [a.toDouble M, b.toDouble M] := by
  rw [evalAll, hl, evalAll_singleton hr]
  rfl

theorem eval_subscript {array : String} {n : Int} (he : e.eval M scope memory = some v) (hn : v.integer? = some n) :
    (subscript array e).eval M scope memory = memory array n := by
  rw [eval, he, Option.bind_eq_bind, Option.bind_some, hn]
  rfl

theorem eval_cast (he : e.eval M scope memory = some v) :
    (cast "double" e).eval M scope memory = some (.double (v.toDouble M)) := by
  rw [eval, he]
  rfl

end Expr

def Memory.Respects (memory : Memory F D) (declared : String → Option CType) : Prop :=
  ∀ array n v, memory array n = some v → declared array = some v.type

theorem Expr.type?_of_eval {M : Machine F D} {scope : List (String × Int)} {memory : Memory F D}
    {declared : String → Option CType} (hmemory : memory.Respects declared) : (e : Expr) → {v : Value F D} →
    e.eval M scope memory = some v → e.type? declared = some v.type
  | int n, v, h => by
    cases h
    rw [type?, Value.type_ofInteger_literal]
  | double x, v, h => by
    cases h
    rfl
  | var x, v, h => by
    obtain ⟨n, -, rfl⟩ := Option.map_eq_some_iff.1 h
    rfl
  | neg e, v, h => by
    obtain ⟨w, hw, rfl⟩ := Option.map_eq_some_iff.1 h
    rw [type?, type?_of_eval hmemory e hw, Value.type_neg]
  | binary symbol l r, v, h => by
    obtain ⟨op, a, b, -, ha, hb, h⟩ := exists_of_eval_binary h
    rw [type?, type?_of_eval hmemory l ha, type?_of_eval hmemory r hb, Value.type_binary M h]
    rfl
  | paren e, v, h => type?_of_eval hmemory e h
  | call f args, v, h => by
    obtain ⟨xs, x, -, -, rfl⟩ := exists_of_eval_call h
    rfl
  | subscript array index, v, h => by
    obtain ⟨w, -, h⟩ := Option.bind_eq_some_iff.1 h
    obtain ⟨n, -, h⟩ := Option.bind_eq_some_iff.1 h
    exact hmemory array n v h
  | cast type e, v, h => by
    obtain ⟨w, -, h⟩ := Option.bind_eq_some_iff.1 h
    split at h
    · next hdouble =>
      cases h
      rw [hdouble]
      rfl
    · cases h

section Forms

variable (M : Machine F D) (memory : Memory F D) (names : List String)

def Yields (e : Expr) (x : Valuation → Int) : Prop :=
  ∀ scope env, Binds scope names env → ∃ v, e.eval M scope memory = some v ∧ v.integer? = some (x env)

variable {M memory names} in
theorem Yields.binary {l r : Expr} {x y : Valuation → Int} (hl : Yields M memory names l x)
    (hr : Yields M memory names r y) {symbol : String} {op : Operator} {f : Int → Int → Int}
    (hsymbol : operator? symbol = some op) (hop : ∀ m n, integerBinary op m n = some (f m n)) :
    Yields M memory names (.binary symbol l r) fun env => f (x env) (y env) := by
  intro scope env henv
  obtain ⟨a, ha, hx⟩ := hl scope env henv
  obtain ⟨b, hb, hy⟩ := hr scope env henv
  rw [Expr.eval_binary hsymbol ha hb]
  exact Value.exists_binary_integer M hx hy (hop _ _)

theorem composes_yields : Composes names fun _ e x => Yields M memory names e x where
  mono h _ := h
  int n scope env _ := ⟨_, rfl, Value.integer?_ofInteger _ _⟩
  var ha scope env henv := ⟨.long (env _), by rw [Expr.eval, henv _ ha]; rfl, rfl⟩
  neg ha scope env henv := ⟨.long (-env _), by rw [Expr.eval, Expr.eval, henv _ ha]; rfl, rfl⟩
  paren h := h
  mul hl hr := hl.binary hr rfl fun _ _ => rfl
  add hl hr := hl.binary hr rfl fun _ _ => rfl

end Forms

end LoopNest.C
