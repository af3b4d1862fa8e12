import LoopNest.Execution.Reference
import LoopNest.Proofs.Execution.Refinement
import LoopNest.Proofs.Kernel.NamedWalk
import LoopNest.Proofs.Program.Addressing

/-!
What a tree computes, with index vectors in the place of cells. Every point of the tree stores one value under one
index vector, and the points of the tree come one after another. In a tree of small numbers whose accesses stay inside
their buffers the interpreter does the same.
-/

namespace LoopNest

open Kernel LoopNest.Flow RowMajor

abbrev Entry : Type := Nat × List Int

abbrev Tensors (V : Type) : Type := Entry → V

namespace Expr

theorem valueFrom_eq_eval {V : Type} {A : Arithmetic V} {env : String → Int} {read : Access → V} {loaded : Nat → V}
    {e : Expr} {next : Nat} (h : ∀ n a, e.loads[n]? = some a → loaded (next + n) = read a) :
    e.valueFrom A env loaded next = e.eval A env read := by
  induction e generalizing next with
  | const v => rfl
  | iter name => rfl
  | load a => exact h 0 a rfl
  | binary op l r ihl ihr =>
    have hleft (n : Nat) (a : Access) (ha : l.loads[n]? = some a) : loaded (next + n) = read a := by
      apply h
      rw [loads, List.getElem?_append_left (List.getElem?_eq_some_iff.1 ha).1, ha]
    have hright (n : Nat) (a : Access) (ha : r.loads[n]? = some a) : loaded (next + l.loads.length + n) = read a := by
      rw [Nat.add_assoc]
      apply h
      rw [loads, List.getElem?_append_right (Nat.le_add_right _ _), Nat.add_sub_cancel_left, ha]
    rw [valueFrom, eval, ihl hleft, ihr hright]
  | neg e ih => rw [valueFrom, eval, ih h]
  | call f e ih => rw [valueFrom, eval, ih h]

end Expr

namespace Access

variable {p : Program} {env : String → Int} {a : Access}

def entryAt (env : String → Int) (a : Access) : Entry := (a.buffer, a.indices.map fun f => f.value env)

def InsideAt (p : Program) (env : String → Int) (a : Access) : Prop :=
  ∃ b, p.buffers[a.buffer]? = some b ∧ RowMajor.Inside b.shape (a.entryAt env).2

theorem InsideAt.locationAt (h : a.InsideAt p env) : ∃ b, p.buffers[a.buffer]? = some b ∧
    RowMajor.Inside b.shape (a.entryAt env).2 ∧
    a.locationAt p env = (a.buffer, some (encode b.shape (a.entryAt env).2)) := by
  obtain ⟨b, hb, hin⟩ := h
  refine ⟨b, hb, hin, ?_⟩
  have hoffset := offsetFrom_eq_encode hin 0
  rw [Nat.zero_add] at hoffset
  simp only [Access.locationAt, hb]
  exact congrArg _ hoffset

theorem InsideAt.inside (h : a.InsideAt p env) : Flow.Inside p (a.locationAt p env) := by
  obtain ⟨b, hb, hin, hlocation⟩ := h.locationAt
  rw [hlocation]
  exact ⟨b, _, hb, rfl, encode_lt hin⟩

end Access

namespace Computation

variable {V : Type}

def storeEntry (c : Computation) (point : List Int) : Entry := c.store.entryAt (pointEnv c.iterators point)

def valueAt (A : Arithmetic V) (p : Program) (c : Computation) (point : List Int) (T : Tensors V) : V :=
  A.round (Interpreter.dtypeOf p c.store.buffer)
    (c.expr.eval A (pointEnv c.iterators point) fun a => T (a.entryAt (pointEnv c.iterators point)))

def StaysInside (p : Program) (c : Computation) (point : List Int) : Prop :=
  ∀ a ∈ c.store :: c.expr.loads, a.InsideAt p (pointEnv c.iterators point)

end Computation

namespace Tensors

variable {V : Type}

section Runs

variable (A : Arithmetic V) (p : Program)

def step (id : InstanceId) (T : Tensors V) : Tensors V :=
  match p.computations[id.1]? with
  | some c => Function.update T (c.storeEntry id.2) (c.valueAt A p id.2 T)
  | none => T

def run (ids : List InstanceId) (T : Tensors V) : Tensors V := ids.foldl (fun T id => step A p id T) T

@[simp] theorem run_nil (T : Tensors V) : run A p [] T = T := rfl

@[simp] theorem run_cons (id : InstanceId) (ids : List InstanceId) (T : Tensors V) :
    run A p (id :: ids) T = run A p ids (step A p id T) := rfl

@[simp] theorem run_append (ids ids' : List InstanceId) (T : Tensors V) :
    run A p (ids ++ ids') T = run A p ids' (run A p ids T) := List.foldl_append

theorem run_flatMap {α : Type} (xs : List α) (f : α → List InstanceId) (T : Tensors V) :
    run A p (xs.flatMap f) T = xs.foldl (fun T x => run A p (f x) T) T := List.foldl_flatMap

def ofContents (c : Contents V) : Tensors V := fun (b, vs) =>
  Interpreter.memory A c (b, p.buffers[b]?.map fun buffer => encode buffer.shape vs)

end Runs

variable {A : Arithmetic V} {p : Program} {T : Tensors V} {c : Contents V}

structure Describes (A : Arithmetic V) (p : Program) (T : Tensors V) (c : Contents V) : Prop where
  shaped : p.Shaped c
  entries : ∀ b buffer vs, p.buffers[b]? = some buffer → RowMajor.Inside buffer.shape vs →
    Interpreter.memory A c (b, some (encode buffer.shape vs)) = T (b, vs)

theorem describes_ofContents (hc : p.Shaped c) : Describes A p (ofContents A p c) c where
  shaped := hc
  entries b buffer vs hb _ := by simp only [ofContents, hb, Option.map_some]

namespace Describes

variable (hd : Describes A p T c)
include hd

theorem memory_locationAt {env : String → Int} {a : Access} (h : a.InsideAt p env) :
    Interpreter.memory A c (a.locationAt p env) = T (a.entryAt env) := by
  obtain ⟨b, hb, hin, hlocation⟩ := h.locationAt
  rw [hlocation]
  exact hd.entries a.buffer b _ hb hin

theorem setCell {b n : Nat} {buffer : Buffer} {vs : List Int} (hb : p.buffers[b]? = some buffer)
    (hin : RowMajor.Inside buffer.shape vs) (hn : n = encode buffer.shape vs) (x : V) :
    Describes A p (Function.update T (b, vs) x) (setCell c b n x) := by
  subst hn
  refine ⟨hd.shaped.setCell _ _ _, fun b' buffer' vs' hb' hin' => ?_⟩
  rw [Interpreter.memory_setCell hd.shaped ⟨buffer, _, hb, rfl, encode_lt hin⟩]
  by_cases hsame : (b', vs') = (b, vs)
  · cases hsame
    cases hb.symm.trans hb'
    rw [Function.update_self, Function.update_self]
  · rw [Function.update_of_ne hsame, Function.update_of_ne, hd.entries b' buffer' vs' hb' hin']
    intro hlocation
    obtain ⟨rfl, hencode⟩ := Prod.mk.inj hlocation
    cases hb.symm.trans hb'
    apply hsame
    rw [← decode_encode hin, ← Option.some.inj hencode, decode_encode hin']

section Visit

variable {i : Instance} {id : InstanceId} {computation : Computation}
  (hm : Means (fun _ => False) p computation i id) (hin : computation.StaysInside p id.2)
include hm hin

theorem exists_loadAll : ∃ loaded, Interpreter.loadAll p c i i.statement.reads #[] = .ok loaded ∧
    ∀ n a, computation.expr.loads[n]? = some a →
      loaded.getD n A.zero = T (a.entryAt (pointEnv computation.iterators id.2)) := by
  have hloads : ∀ a ∈ computation.expr.loads, a.InsideAt p (pointEnv computation.iterators id.2) :=
    fun a ha => hin a (List.mem_cons_of_mem _ ha)
  have hlocations : Place.locations i.env i.statement.reads = .ok (computation.locationsAt p id.2) :=
    (Place.traverses_locations i.env).eq_ok.2 (hm.reads.imp fun _ _ h => h.eq)
  have hinside : ∀ a ∈ computation.locationsAt p id.2, Flow.Inside p a := by
    intro location hlocation
    obtain ⟨a, ha, rfl⟩ := List.mem_map.1 hlocation
    exact (hloads a ha).inside
  refine ⟨_, Interpreter.loadAll_of_inside (A := A) hd.shaped hlocations hinside #[], fun n a ha => ?_⟩
  simp only [Computation.locationsAt, Array.getD_eq_getD_getElem?, List.append_toArray, List.nil_append,
    List.getElem?_toArray, List.getElem?_map, ha, Option.map_some, Option.getD_some]
  exact hd.memory_locationAt (hloads a (List.mem_of_getElem? ha))

theorem exists_visit :
    ∃ c', Interpreter.visit A p i c = .ok c' ∧ Describes A p (step A p id T) c' := by
  obtain ⟨loaded, hloaded, hvalues⟩ := hd.exists_loadAll hm hin
  obtain ⟨b, hb, hinside, hlocation⟩ := (hin computation.store List.mem_cons_self).locationAt
  have hstore := hm.store.eq
  rw [Computation.storeAt, hlocation] at hstore
  obtain ⟨n, hoffset, hn⟩ := Interpreter.offsetIn_of_inside hstore ⟨b, _, hb, rfl, encode_lt hinside⟩
  obtain ⟨hbuffer, hn⟩ := Prod.mk.inj hn
  have hwritten : Flow.Inside p (computation.store.buffer, some n) :=
    ⟨b, n, hb, rfl, Option.some.inj hn ▸ encode_lt hinside⟩
  have hvalue := (hm.value A loaded).eq
  rw [Expr.valueFrom_eq_eval (fun n a ha => by rw [Nat.zero_add]; exact hvalues n a ha)] at hvalue
  refine ⟨LoopNest.setCell c computation.store.buffer n (computation.valueAt A p id.2 T), ?_, ?_⟩
  · rw [Interpreter.visit, hloaded, ok_bind, hvalue, lift_ok, ok_bind, hoffset, ok_bind, ← hbuffer,
      Interpreter.writeAt_of_inside hd.shaped hwritten]
    rfl
  · simp only [step, hm.computation]
    exact hd.setCell hb hinside (Option.some.inj hn).symm _

end Visit

theorem exists_visitAll {is : List Instance} {ids : List InstanceId}
    (hmeans : List.Forall₂ (fun i id => ∃ computation, Means (fun _ => False) p computation i id) is ids)
    (hin : ∀ id ∈ ids, ∀ computation, p.computations[id.1]? = some computation → computation.StaysInside p id.2) :
    ∃ c', visitAll (Interpreter.visit A p) is c = .ok c' ∧ Describes A p (run A p ids T) c' := by
  induction hmeans generalizing T c with
  | nil => exact ⟨c, rfl, hd⟩
  | @cons i id is ids hi _ ih =>
    obtain ⟨computation, hm⟩ := hi
    obtain ⟨hid, hids⟩ := List.forall_mem_cons.1 hin
    obtain ⟨next, hnext, hd⟩ := hd.exists_visit hm (hid computation hm.computation)
    obtain ⟨c', hc', hd'⟩ := ih hd hids
    exact ⟨c', bind_eq_ok.2 ⟨next, hnext, hc'⟩, hd'⟩

end Describes

end Tensors

/-- The numbers of the tree are small, and its accesses stay inside their buffers. -/
structure Runnable (p : Program) (roots : List LoopNest.Node) : Prop where
  inScope : Node.ScopedAll p [] roots
  small : ∃ bound, 0 < bound ∧ (∀ l ∈ Node.leavesAll roots, l.Light p bound) ∧ Node.LightAll bound outermost roots
  inside : ∀ id ∈ Node.pointsAll outermost roots, ∀ c, p.computations[id.1]? = some c → c.StaysInside p id.2

theorem Runnable.exists_instances {p : Program} {roots : List LoopNest.Node} (hr : Runnable p roots)
    (hp : p.WellFormed) : ∃ k is, ofTree p roots = .ok k ∧
      List.Forall₂ (fun i id => ∃ c, Means (fun _ => False) p c i id) is (Node.pointsAll outermost roots) ∧
      ∀ {ε σ : Type} (visit : Instance → σ → Outcome ε σ) (s : σ), k.walk visit s = visitAll visit is s := by
  obtain ⟨bound, hbound, hleaves, hlight⟩ := hr.small
  exact exists_instances_of_light hp hr.inScope hbound hleaves hlight

namespace Tensors

variable {V : Type} {A : Arithmetic V} {p : Program} {roots : List LoopNest.Node} {inputs : Inputs V}

theorem exists_runTree {description : Description} (hp : description.build = .ok p) (hr : Runnable p roots)
    (hi : inputs.validate p = .ok ()) : ∃ values c, Interpreter.initialContents A inputs p.buffers = .ok values ∧
      Interpreter.runTree A p roots inputs = .ok c ∧
      Describes A p (run A p (Node.pointsAll outermost roots) (ofContents A p values.toArray)) c := by
  obtain ⟨k, is, hk, hmeans, hwalk⟩ := hr.exists_instances (Description.wellFormed_of_build hp)
  obtain ⟨values, hvalues, hshaped⟩ := Interpreter.exists_initialContents (A := A) hi
  obtain ⟨c, hc, hd⟩ := (describes_ofContents hshaped).exists_visitAll hmeans hr.inside
  refine ⟨values, c, hvalues, ?_, hd⟩
  rw [Interpreter.runTree, hk]
  change Interpreter.run A p k inputs = _
  rw [Interpreter.run, hvalues, ok_bind, hwalk, hc]

end Tensors

namespace Matrix

variable {V : Type} {A : Arithmetic V} {rows cols : Nat} {f : Nat → Nat → V}

theorem index_lt {i j : Nat} (hi : i < rows) (hj : j < cols) : i * cols + j < rows * cols := by
  have hrow := digit_le cols hi
  omega

theorem get_ofFn {i j : Nat} (hi : i < rows) (hj : j < cols) : (ofFn rows cols f).get A i j = f i j := by
  have hdiv : (i * cols + j) / cols = i := by
    rw [Nat.mul_comm, Nat.mul_add_div (by omega), Nat.div_eq_of_lt hj, Nat.add_zero]
  have hmod : (i * cols + j) % cols = j := by rw [Nat.mul_comm, Nat.mul_add_mod, Nat.mod_eq_of_lt hj]
  have hlt := index_lt hi hj
  simp [get, ofFn, Array.getD_eq_getD_getElem?, hlt, hdiv, hmod]

theorem ofFn_congr {g : Nat → Nat → V} (h : ∀ i < rows, ∀ j < cols, f i j = g i j) :
    ofFn rows cols f = ofFn rows cols g := by
  simp only [ofFn, mk.injEq, true_and]
  congr 1
  funext n
  have hcols : 0 < cols := Nat.pos_of_mul_pos_left (Nat.zero_lt_of_lt n.isLt)
  exact h _ ((Nat.div_lt_iff_lt_mul hcols).2 n.isLt) _ (Nat.mod_lt _ hcols)

end Matrix

namespace Tensors

variable {V : Type} {A : Arithmetic V} {p : Program} {T : Tensors V} {c : Contents V} {b rows cols : Nat}
  {buffer : Buffer} (hb : p.buffers[b]? = some buffer) (hshape : buffer.shape = [rows, cols])
include hb hshape

theorem ofContents_matrix (values : List (Array V)) (i j : Nat) :
    ofContents A p values.toArray (b, [(i : Int), (j : Int)]) =
      Matrix.get A ⟨rows, cols, values.getD b #[]⟩ i j := by
  simp [ofContents, hb, hshape, encode, product, Interpreter.memory, Matrix.get, Array.getD_eq_getD_getElem?]

theorem Describes.entries_eq (hd : Describes A p T c) {f : Nat → Nat → V}
    (h : ∀ i < rows, ∀ j < cols, T (b, [(i : Int), (j : Int)]) = f i j) :
    c.getD b #[] = (Matrix.ofFn rows cols f).entries := by
  have hsize : (c.getD b #[]).size = rows * cols := by
    rw [hd.shaped.entries b buffer hb, Buffer.volume, hshape]
    simp [product]
  have hsize' : (Matrix.ofFn rows cols f).entries.size = rows * cols := by simp [Matrix.ofFn]
  apply ext_getD (x := A.zero) (hsize.trans hsize'.symm)
  intro n
  by_cases hn : n < rows * cols
  · -- the `n`-th entry stands in row `n / cols` and column `n % cols`
    have hcols : 0 < cols := Nat.pos_of_mul_pos_left (Nat.zero_lt_of_lt hn)
    have hrow : n / cols < rows := (Nat.div_lt_iff_lt_mul hcols).2 hn
    have hcol : n % cols < cols := Nat.mod_lt n hcols
    have hinside : RowMajor.Inside buffer.shape [((n / cols : Nat) : Int), ((n % cols : Nat) : Int)] := by
      rw [hshape]
      exact .cons ⟨Int.natCast_nonneg _, Int.ofNat_lt.2 hrow⟩ (.cons ⟨Int.natCast_nonneg _, Int.ofNat_lt.2 hcol⟩ .nil)
    have hencode : encode buffer.shape [((n / cols : Nat) : Int), ((n % cols : Nat) : Int)] = n := by
      rw [hshape]
      simp only [encode, product, List.foldr_cons, List.foldr_nil, Int.toNat_natCast, Nat.mul_one, Nat.add_zero]
      exact Nat.div_add_mod' n cols
    have hentry := hd.entries b buffer _ hb hinside
    rw [hencode, h _ hrow _ hcol] at hentry
    rw [show (c.getD b #[]).getD n A.zero = f (n / cols) (n % cols) from hentry]
    simp [Matrix.ofFn, Array.getD_eq_getD_getElem?, hn]
  · have hout (entries : Array V) (he : entries.size = rows * cols) : entries.getD n A.zero = A.zero := by
      simp [Array.getD, he, hn]
    rw [hout _ hsize, hout _ hsize']

end Tensors

section Updates

variable {ι α V : Type} [DecidableEq α] {place : ι → α} {value : ι → (α → V) → V} {xs : List ι}

theorem foldl_update_apart (hplaces : (xs.map place).Nodup)
    (hvalue : ∀ x ∈ xs, ∀ m m' : α → V, (∀ a, (a ∈ xs.map place → a = place x) → m a = m' a) →
      value x m = value x m') (m : α → V) :
    (∀ x ∈ xs, xs.foldl (fun m x => Function.update m (place x) (value x m)) m (place x) = value x m) ∧
    ∀ a, a ∉ xs.map place → xs.foldl (fun m x => Function.update m (place x) (value x m)) m a = m a := by
  induction xs generalizing m with
  | nil => exact ⟨fun x hx => absurd hx List.not_mem_nil, fun a _ => rfl⟩
  | cons y ys ih =>
    rw [List.map_cons, List.nodup_cons] at hplaces
    have hrest : ∀ x ∈ ys, ∀ m m' : α → V, (∀ a, (a ∈ ys.map place → a = place x) → m a = m' a) →
        value x m = value x m' := by
      intro x hx m m' hm
      apply hvalue x (List.mem_cons_of_mem _ hx)
      intro a ha
      exact hm a fun hmem => ha (List.mem_cons_of_mem _ hmem)
    obtain ⟨hin, hout⟩ := ih hplaces.2 hrest (Function.update m (place y) (value y m))
    constructor
    · intro x hx
      rcases List.mem_cons.1 hx with rfl | hx
      · rw [List.foldl_cons, hout _ hplaces.1, Function.update_self]
      · rw [List.foldl_cons, hin x hx]
        apply hvalue x (List.mem_cons_of_mem _ hx)
        intro a ha
        apply Function.update_of_ne
        rintro rfl
        have hsame : place y = place x := ha List.mem_cons_self
        exact hplaces.1 (hsame ▸ List.mem_map_of_mem hx)
    · intro a ha
      rw [List.map_cons, List.mem_cons, not_or] at ha
      rw [List.foldl_cons, hout a ha.2, Function.update_of_ne ha.1]

end Updates

end LoopNest
