import LoopNest.Kernel.Basic
import LoopNest.Program.Basic
import LoopNest.Tree.Basic

/-!
From loop trees to kernels. A name resolves to the innermost loop that has it; an index of a computation is
put together from the bindings of its leaf.
-/

namespace LoopNest

inductive NumberingError where
  | unbound (name : String)
  | unknownIterator (name computation : String)
  deriving DecidableEq

def NumberingError.message : NumberingError → String
  | unbound name => "`" ++ name ++ "` is not bound by an enclosing loop"
  | unknownIterator name computation =>
    "`" ++ name ++ "` is not an iterator of `" ++ computation ++ "`"

abbrev Numbered (α : Type) : Type := Outcome NumberingError α

namespace KernelForm

def addTerm (ts : List (Nat × Int)) (slot : Nat) (c : Int) : Checked (List (Nat × Int)) :=
  match ts with
  | [] => .ok [(slot, c)]
  | (s, d) :: rest =>
    if s = slot then do
      let d ← Word.add d c
      return (s, d) :: rest
    else do
      let rest ← addTerm rest slot c
      return (s, d) :: rest

def plusMultipleTerms (scale : Int) : List (Nat × Int) → List (Nat × Int) → Checked (List (Nat × Int))
  | acc, [] => .ok acc
  | acc, (slot, coeff) :: ts => do
    let c ← Word.mul coeff scale
    let acc ← addTerm acc slot c
    plusMultipleTerms scale acc ts

def plusMultiple (f g : KernelForm) (scale : Int) : Checked KernelForm := do
  let c ← Word.mul g.constant scale
  let constant ← Word.add f.constant c
  let terms ← plusMultipleTerms scale f.terms g.terms
  return { terms := terms.filter (fun t => t.2 != 0), constant }

end KernelForm

namespace Numbering

-- innermost first
abbrev Scope : Type := List String

def slots (scope : Scope) : List Term → Numbered (List (Nat × Int))
  | [] => .ok []
  | t :: ts =>
    match position? (· == t.atom) scope with
    | none => Outcome.refuse (.unbound t.atom)
    | some slot => do
      let rest ← slots scope ts
      return (slot, t.coeff) :: rest

def form (scope : Scope) (f : Affine) : Numbered KernelForm := do
  let terms ← slots scope f.terms
  return { terms, constant := f.constant }

def forms (scope : Scope) : List Affine → Numbered (List KernelForm)
  | [] => .ok []
  | f :: fs => do
    let g ← form scope f
    let gs ← forms scope fs
    return g :: gs

structure Bindings where
  computation : String
  values : List (String × KernelForm)

def Bindings.sum (b : Bindings) : KernelForm → List Term → Numbered KernelForm
  | acc, [] => .ok acc
  | acc, t :: ts =>
    match b.values.find? fun v => v.1 == t.atom with
    | none => Outcome.refuse (.unknownIterator t.atom b.computation)
    | some v => do
      let acc ← acc.plusMultiple v.2 t.coeff
      b.sum acc ts

def Bindings.form (b : Bindings) (f : Affine) : Numbered KernelForm := b.sum ⟨[], f.constant⟩ f.terms

def Bindings.forms (b : Bindings) : List Affine → Numbered (List KernelForm)
  | [] => .ok []
  | f :: fs => do
    let g ← b.form f
    let gs ← b.forms fs
    return g :: gs

def Bindings.place (b : Bindings) (p : Program) (a : Access) : Numbered Place := do
  let indices ← b.forms a.indices
  let (shape, strides) := match p.buffers[a.buffer]? with
    | some buffer => (buffer.shape, buffer.strides)
    | none => ([], [])
  return { buffer := a.buffer, indices := indices.zip (shape.zip strides) }

def Bindings.expr (b : Bindings) (p : Program) (next : Nat) : Expr → Numbered (KernelExpr × List Place)
  | .const v => .ok (.const v, [])
  | .iter name => do
    let f ← b.form (Affine.var name)
    return (.slot f, [])
  | .load a => do
    let place ← b.place p a
    return (.load next, [place])
  | .binary op l r => do
    let (l, ls) ← b.expr p next l
    let (r, rs) ← b.expr p (next + ls.length) r
    return (.binary op l r, ls ++ rs)
  | .neg e => do
    let (e, es) ← b.expr p next e
    return (.neg e, es)
  | .call f e => do
    let (e, es) ← b.expr p next e
    return (.call f e, es)

def statementOf (p : Program) (computation : Nat) (c : Computation) (iterators : List KernelForm) :
    Numbered Statement := do
  let b : Bindings := ⟨c.name, c.iterators.zip iterators⟩
  let (value, reads) ← b.expr p 0 c.expr
  let store ← b.place p c.store
  return { computation, iterators, reads, store, value }

def statement (p : Program) (scope : Scope) (l : Leaf) : Numbered Statement := do
  match p.computations[l.computation]? with
  | none => Except.error (.fault .indexOutOfRange)
  | some c =>
    let iterators ← forms scope l.bindings
    statementOf p l.computation c iterators

def clampForm (scope : Scope) : Option Affine → Numbered (Option KernelForm)
  | none => .ok none
  | some c => do
    let f ← form scope c
    return some f

mutual

def node (p : Program) (scope : Scope) (next : Nat) : LoopNest.Node → Numbered (Kernel.Node × Nat)
  | .leaf l => do
    let s ← statement p scope l
    return (.leaf s, next)
  | .loop h body => do
    let lower ← form scope h.lower
    let upper ← form scope h.upper
    let clamp ← clampForm scope h.clamp
    let range : Range :=
      { number := next, dim := h.dim, lower, upper, clamp, concurrent := h.isConcurrent }
    let (body, next) ← nodes p (h.dim :: scope) (next + 1) body
    return (.loop range body, next)

def nodes (p : Program) (scope : Scope) (next : Nat) :
    List LoopNest.Node → Numbered (List Kernel.Node × Nat)
  | [] => .ok ([], next)
  | n :: ns => do
    let (n, next) ← node p scope next n
    let (ns, next) ← nodes p scope next ns
    return (n :: ns, next)

end

structure RangeOf (scope : Scope) (next : Nat) (h : Header) (r : Range) : Prop where
  number : r.number = next
  dim : r.dim = h.dim
  lower : form scope h.lower = .ok r.lower
  upper : form scope h.upper = .ok r.upper
  clamp : clampForm scope h.clamp = .ok r.clamp
  concurrent : r.concurrent = h.isConcurrent

section Parts

variable {p : Program} {scope : Scope} {next next' : Nat}

theorem node_leaf_eq_ok {l : Leaf} {k : Kernel.Node} (hk : node p scope next (.leaf l) = .ok (k, next')) :
    ∃ st, statement p scope l = .ok st ∧ k = .leaf st ∧ next' = next := by
  rw [node] at hk
  obtain ⟨st, hst, hk⟩ := bind_eq_ok.1 hk
  cases hk
  exact ⟨st, hst, rfl, rfl⟩

theorem node_loop_eq_ok {h : Header} {body : List LoopNest.Node} {k : Kernel.Node}
    (hk : node p scope next (.loop h body) = .ok (k, next')) :
    ∃ r ks, RangeOf scope next h r ∧ nodes p (h.dim :: scope) (next + 1) body = .ok (ks, next') ∧
      k = .loop r ks := by
  rw [node] at hk
  obtain ⟨lower, hlower, hk⟩ := bind_eq_ok.1 hk
  obtain ⟨upper, hupper, hk⟩ := bind_eq_ok.1 hk
  obtain ⟨clamp, hclamp, hk⟩ := bind_eq_ok.1 hk
  obtain ⟨⟨ks, last⟩, hbody, hk⟩ := bind_eq_ok.1 hk
  cases hk
  exact ⟨_, ks, ⟨rfl, rfl, hlower, hupper, hclamp, rfl⟩, hbody, rfl⟩

theorem nodes_cons_eq_ok {n : LoopNest.Node} {ns : List LoopNest.Node} {ks : List Kernel.Node}
    (hk : nodes p scope next (n :: ns) = .ok (ks, next')) :
    ∃ k mid rest, node p scope next n = .ok (k, mid) ∧ nodes p scope mid ns = .ok (rest, next') ∧
      ks = k :: rest := by
  rw [nodes] at hk
  obtain ⟨⟨k, mid⟩, hn, hk⟩ := bind_eq_ok.1 hk
  obtain ⟨⟨rest, last⟩, hns, hk⟩ := bind_eq_ok.1 hk
  cases hk
  exact ⟨k, mid, rest, hn, hns, rfl⟩

end Parts

end Numbering

def Kernel.ofTree (p : Program) (roots : List LoopNest.Node) : Numbered Kernel := do
  let (body, loops) ← Numbering.nodes p [] 0 roots
  return { body, loops }

end LoopNest
