import LoopNest.Proofs.Execution.Tensors

namespace LoopNest

def Arithmetic.noting {V : Type} (A : Arithmetic V) (f : Intrinsic) : Arithmetic (V × List V) where
  ofConst v := (A.ofConst v, [])
  ofInt n := (A.ofInt n, [])
  binary op x y := (A.binary op x.1 y.1, x.2 ++ y.2)
  neg x := (A.neg x.1, x.2)
  call g x := (A.call g x.1, if g = f then x.2 ++ [x.1] else x.2)
  round d x := (A.round d x.1, x.2)
  zero := (A.zero, [])

theorem KernelExpr.eval_noting {V : Type} (A : Arithmetic V) (f : Intrinsic) (loaded : Array V) (env : Env)
    (e : KernelExpr) :
    (e.eval (A.noting f) (loaded.map fun x => (x, [])) env).map Prod.fst = e.eval A loaded env := by
  induction e with
  | const v => rfl
  | slot g =>
    rw [eval, eval]
    cases g.eval env with
    | error e => rfl
    | ok n => rfl
  | load n =>
    rw [eval, eval]
    by_cases hn : n < loaded.size <;> simp [Except.map, Array.getD, hn, Arithmetic.noting]
  | binary op l r ihl ihr =>
    rw [eval, eval, ← ihl, ← ihr]
    cases l.eval (A.noting f) (loaded.map fun x => (x, [])) env with
    | error e => rfl
    | ok x =>
      cases r.eval (A.noting f) (loaded.map fun x => (x, [])) env with
      | error e => rfl
      | ok y => rfl
  | neg e ih =>
    rw [eval, eval, ← ih]
    cases e.eval (A.noting f) (loaded.map fun x => (x, [])) env with
    | error e => rfl
    | ok x => rfl
  | call g e ih =>
    rw [eval, eval, ← ih]
    cases e.eval (A.noting f) (loaded.map fun x => (x, [])) env with
    | error e => rfl
    | ok x => rfl

namespace Interpreter

variable {V : Type} (A : Arithmetic V) (f : Intrinsic) (p : Program)

def visitArguments (i : Instance) (c : Contents V) : Executed (List V) := do
  let loaded ← loadAll p c i i.statement.reads #[]
  let v ← i.statement.value.eval (A.noting f) (loaded.map fun x => (x, [])) i.env
  return v.2

def visitNoting (i : Instance) (s : Contents V × List V) : Executed (Contents V × List V) := do
  let xs ← visitArguments A f p i s.1
  let c ← visit A p i s.1
  return (c, s.2 ++ xs)

def arguments (roots : List Node) (i : Inputs V) : Executed (List V) := do
  let k ← (Kernel.ofTree p roots).mapRefusal .numbering
  let contents ← initialContents A i p.buffers
  let s ← k.walk (visitNoting A f p) (contents.toArray, [])
  return s.2

end Interpreter

namespace Computation

variable {V : Type} (A : Arithmetic V) (f : Intrinsic)

def argumentsAt (c : Computation) (point : List Int) (T : Tensors V) : List V :=
  (c.expr.eval (A.noting f) (pointEnv c.iterators point)
    fun a => (T (a.entryAt (pointEnv c.iterators point)), [])).2

end Computation

namespace Tensors

variable {V : Type}

section Runs

variable (A : Arithmetic V) (f : Intrinsic) (p : Program)

def stepArguments (id : InstanceId) (T : Tensors V) : List V :=
  match p.computations[id.1]? with
  | some c => c.argumentsAt A f id.2 T
  | none => []

def arguments : List InstanceId → Tensors V → List V
  | [], _ => []
  | id :: ids, T => stepArguments A f p id T ++ arguments ids (step A p id T)

theorem arguments_append (ids ids' : List InstanceId) (T : Tensors V) :
    arguments A f p (ids ++ ids') T = arguments A f p ids T ++ arguments A f p ids' (run A p ids T) := by
  induction ids generalizing T with
  | nil => rfl
  | cons id ids ih => rw [List.cons_append, arguments, ih, run_cons, arguments, List.append_assoc]

end Runs

variable {A : Arithmetic V} {f : Intrinsic} {p : Program} {T : Tensors V} {c : Contents V}

namespace Describes

variable (hd : Describes A p T c)
include hd

theorem exists_visitNoting {i : Instance} {id : InstanceId} {computation : Computation}
    (hm : Means (fun _ => False) p computation i id) (hin : computation.StaysInside p id.2) (xs : List V) :
    ∃ c', Interpreter.visitNoting A f p i (c, xs) = .ok (c', xs ++ stepArguments A f p id T) ∧
      Describes A p (step A p id T) c' := by
  obtain ⟨loaded, hloaded, hvalues⟩ := hd.exists_loadAll hm hin
  obtain ⟨c', hc', hd'⟩ := hd.exists_visit hm hin
  have hread : ∀ n a, computation.expr.loads[n]? = some a →
      (loaded.map fun x => (x, ([] : List V))).getD (0 + n) (A.noting f).zero =
        (T (a.entryAt (pointEnv computation.iterators id.2)), []) := by
    intro n a ha
    rw [Nat.zero_add, ← hvalues n a ha]
    by_cases hn : n < loaded.size <;> simp [Array.getD, hn, Arithmetic.noting]
  have hnoted := (hm.value (A.noting f) (loaded.map fun x => (x, []))).eq
  rw [Expr.valueFrom_eq_eval hread] at hnoted
  refine ⟨c', ?_, hd'⟩
  rw [Interpreter.visitNoting, Interpreter.visitArguments, hloaded, ok_bind, hnoted, lift_ok, ok_bind, hc',
    stepArguments, hm.computation]
  rfl

theorem exists_visitAll_noting {is : List Instance} {ids : List InstanceId}
    (hmeans : List.Forall₂ (fun i id => ∃ computation, Means (fun _ => False) p computation i id) is ids)
    (hin : ∀ id ∈ ids, ∀ computation, p.computations[id.1]? = some computation → computation.StaysInside p id.2)
    (xs : List V) :
    ∃ c', Kernel.visitAll (Interpreter.visitNoting A f p) is (c, xs) = .ok (c', xs ++ arguments A f p ids T) := by
  induction hmeans generalizing T c xs with
  | nil => exact ⟨c, by rw [arguments, List.append_nil]; rfl⟩
  | @cons i id is ids hi _ ih =>
    obtain ⟨computation, hm⟩ := hi
    obtain ⟨hid, hids⟩ := List.forall_mem_cons.1 hin
    obtain ⟨next, hnext, hd⟩ := hd.exists_visitNoting (f := f) hm (hid computation hm.computation) xs
    obtain ⟨c', hc'⟩ := ih hd hids (xs ++ stepArguments A f p id T)
    rw [List.append_assoc] at hc'
    exact ⟨c', bind_eq_ok.2 ⟨_, hnext, hc'⟩⟩

end Describes

theorem arguments_eq {description : Description} (hp : description.build = .ok p) {roots : List LoopNest.Node}
    (hr : Runnable p roots) {inputs : Inputs V} (hi : inputs.validate p = .ok ()) {values : List (Array V)}
    (hvalues : Interpreter.initialContents A inputs p.buffers = .ok values) :
    Interpreter.arguments A f p roots inputs =
      .ok (arguments A f p (Node.pointsAll outermost roots) (ofContents A p values.toArray)) := by
  obtain ⟨k, is, hk, hmeans, hwalk⟩ := hr.exists_instances (Description.wellFormed_of_build hp)
  obtain ⟨values', hvalues', hshaped⟩ := Interpreter.exists_initialContents (A := A) hi
  cases hvalues.symm.trans hvalues'
  obtain ⟨c, hc⟩ := (describes_ofContents hshaped).exists_visitAll_noting (f := f) hmeans hr.inside []
  rw [Interpreter.arguments, hk, hvalues]
  change (k.walk (Interpreter.visitNoting A f p) (values.toArray, []) >>= fun s => pure s.2) = _
  rw [hwalk, hc]
  rfl

end Tensors

end LoopNest
