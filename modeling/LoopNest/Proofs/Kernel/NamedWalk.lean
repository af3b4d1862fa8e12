import LoopNest.Proofs.Dataflow.Legality
import LoopNest.Proofs.Kernel.Weight
import LoopNest.Transform.Split

/-!
The walk of a kernel against the tree it was made from. The tree is read with names: a loop runs its variable
over the values of its limits, siblings follow each other, a leaf takes its point from its bindings, and its
computation says which cells it reads and stores and what it makes of them. The kernel does the same as far as
its numbers stay within words, and they do in trees of small numbers.
-/

namespace LoopNest

open Kernel

structure Means (P : Fault → Prop) (p : Program) (c : Computation) (i : Instance) (id : InstanceId) : Prop where
  computation : p.computations[id.1]? = some c
  same : i.statement.computation = id.1
  point : UpTo P i.point (.ok id.2)
  reads : List.Forall₂ (fun place location => UpTo P (Place.location place i.env) (.ok location))
    i.statement.reads (c.locationsAt p id.2)
  store : UpTo P (i.statement.store.location i.env) (.ok (c.storeAt p id.2))
  value {V : Type} (A : Arithmetic V) (loaded : Array V) : UpTo P (i.statement.value.eval A loaded i.env)
    (.ok (c.expr.valueFrom A (pointEnv c.iterators id.2) (fun n => loaded.getD n A.zero) 0))

theorem Place.offsetFrom_failsOnly {P : Fault → Prop} {env : Env} {indices : List (KernelForm × Nat × Nat)}
    (h : ∀ i ∈ indices, FailsOnly P (i.1.eval env)) (total : Nat) : FailsOnly P (offsetFrom env total indices) := by
  induction indices generalizing total with
  | nil => exact .ok _
  | cons i indices ih =>
    obtain ⟨hi, h⟩ := List.forall_mem_cons.1 h
    refine hi.bind fun v _ => ?_
    split
    · exact .ok _
    · exact ih h _

theorem Place.offset_failsOnly {P : Fault → Prop} {env : Env} {place : Place}
    (h : ∀ f ∈ place.forms, FailsOnly P (f.eval env)) : FailsOnly P (place.offset env) :=
  offsetFrom_failsOnly (fun i hi => h i.1 (List.mem_map_of_mem hi)) 0

theorem Place.location_failsOnly {P : Fault → Prop} {env : Env} {place : Place}
    (h : ∀ f ∈ place.forms, FailsOnly P (f.eval env)) : FailsOnly P (place.location env) :=
  (offset_failsOnly h).bind fun _ _ => .ok _

theorem Instance.visit_failsOnly (i : Instance) : FailsOnlyBy .overflow i.visit := by
  have hlocation (place : Place) : FailsOnlyBy .overflow (place.location i.env) :=
    Place.location_failsOnly fun f _ => KernelForm.eval_failsOnly f
  exact i.point_failsOnly.bind fun _ _ =>
    ((Place.traverses_locations i.env).failsOnly fun place _ => hlocation place).bind fun _ _ =>
      (hlocation _).bind fun _ _ => .ok _

theorem Kernel.visits_failsOnly (k : Kernel) : FailsOnlyBy .overflow k.visits :=
  (trace_failsOnly k).bind fun _ _ => Instance.traverses_visits.failsOnly fun i _ => i.visit_failsOnly

namespace Numbering

variable {p : Program} {scope : Scope} {env : Env} {P : Fault → Prop}

theorem means_of_statement {l : Leaf} {st : Statement} (hst : statement p scope l = .ok st)
    (hlength : scope.length = env.length) (concurrent : List Iteration)
    (h : ∀ f ∈ st.forms, FailsOnly P (f.eval env)) :
    ∃ c, Means P p c ⟨st, env, concurrent⟩
      (l.computation, l.bindings.map fun f => f.value (valuation scope env)) := by
  obtain ⟨c, hc⟩ := fromLeaf_of_statement hst
  have hpoint := values_of_forms hlength hc.iterators
  -- at the leaf the iterators of the statement have the values of its bindings
  have hvalueOf : Bindings.valueOf ⟨c.name, c.iterators.zip st.iterators⟩ env =
      pointEnv c.iterators (l.bindings.map fun f => f.value (valuation scope env)) := by
    rw [Bindings.valueOf_zip, hpoint]
  have hplace (place : Place) (hp : place ∈ st.reads ++ [st.store]) :
      ∀ f ∈ place.forms, FailsOnly P (f.eval env) := by
    intro f hf
    exact h f (List.mem_append_left _ (List.mem_append_right _ (List.mem_flatMap.2 ⟨place, hp, hf⟩)))
  have hlocation (place : Place) (hp : place ∈ st.reads ++ [st.store]) {a : Access}
      (ha : Bindings.place ⟨c.name, c.iterators.zip st.iterators⟩ p a = .ok place) :
      UpTo P (place.location env) (.ok (a.locationAt p (pointEnv c.iterators
        (l.bindings.map fun f => f.value (valuation scope env))))) := by
    refine .of_failsOnly (Place.location_failsOnly (hplace place hp)) fun b hb => ?_
    rw [location_place ha hb, hvalueOf]
  refine ⟨c, hc.computation, hc.same, ?_, ?_, ?_, fun A loaded => ?_⟩
  · have hiterators : ∀ f ∈ st.iterators, FailsOnly P (f.eval env) := fun f hf =>
      h f (List.mem_append_left _ (List.mem_append_left _ hf))
    refine .of_failsOnly ((KernelForm.traverses_evalAll env).failsOnly hiterators) fun point hp => ?_
    rw [KernelForm.evalAll_eq_ok hp, hpoint]
  · have hreads := List.forall₂_and_left (p := (· ∈ st.reads)) _ _ |>.2
      ⟨fun place hp => hp, (locations_expr hc.value).flip⟩
    exact List.forall₂_map_right_iff.2 (hreads.imp fun place a ⟨hp, ha⟩ =>
      hlocation place (List.mem_append_left _ hp) ha)
  · exact hlocation st.store (List.mem_append_right _ List.mem_cons_self) hc.store
  · have hforms : ∀ f ∈ st.value.forms, FailsOnly P (f.eval env) := fun f hf => h f (List.mem_append_right _ hf)
    refine .of_failsOnly (KernelExpr.eval_failsOnly hforms) fun v hv => ?_
    rw [value_expr hc.value hv, hvalueOf]

mutual

theorem means_of_node {scope : Scope} {next next' : Nat} (n : LoopNest.Node) {k : Kernel.Node}
    (hk : node p scope next n = .ok (k, next')) {env : Env} (hlength : scope.length = env.length)
    (concurrent : List Iteration) (he : k.Evaluates P env) :
    List.Forall₂ (fun i id => ∃ c, Means P p c i id) (instancesNode env concurrent k)
      (n.points (valuation scope env)) := by
  cases n with
  | leaf l =>
    obtain ⟨st, hst, rfl, -⟩ := node_leaf_eq_ok hk
    exact .cons (means_of_statement hst hlength concurrent he) .nil
  | loop h body =>
    obtain ⟨r, ks, hr, hbody, rfl⟩ := node_loop_eq_ok hk
    rw [instancesNode, Node.points, ← values_of_range hlength hr]
    exact forall₂_flatMap fun v hv =>
      means_of_nodes body hbody (by simp [hlength]) (r.inside env concurrent v) (he.2 v hv)

theorem means_of_nodes {scope : Scope} {next next' : Nat} (ns : List LoopNest.Node) {ks : List Kernel.Node}
    (hk : nodes p scope next ns = .ok (ks, next')) {env : Env} (hlength : scope.length = env.length)
    (concurrent : List Iteration) (he : EvaluatesAll P env ks) :
    List.Forall₂ (fun i id => ∃ c, Means P p c i id) (instancesNodes env concurrent ks)
      (Node.pointsAll (valuation scope env) ns) := by
  cases ns with
  | nil =>
    cases hk
    exact .nil
  | cons n ns =>
    obtain ⟨k, mid, rest, hn, hns, rfl⟩ := nodes_cons_eq_ok hk
    rw [instancesNodes, Node.pointsAll]
    exact List.rel_append (means_of_node n hn hlength concurrent he.1) (means_of_nodes ns hns hlength concurrent he.2)

end

end Numbering

section Light

/-- The numbers in the leaf and in the index forms of its computation are small. -/
structure Leaf.Light (p : Program) (bound : Nat) (l : Leaf) : Prop where
  bindings : l.weight * bound < 9223372036854775808
  forms : ∀ c, p.computations[l.computation]? = some c →
    ∀ f ∈ c.forms, f.weight * (l.weight * bound) < 9223372036854775808

namespace Node

mutual

def Light (bound : Nat) (env : Valuation) : Node → Prop
  | leaf _ => True
  | loop h body => (∀ f ∈ h.limits, f.weight * bound < 9223372036854775808) ∧
      ∀ v ∈ h.values env, v.natAbs ≤ bound ∧ LightAll bound (Function.update env h.dim v) body

def LightAll (bound : Nat) (env : Valuation) : List Node → Prop
  | [] => True
  | n :: ns => n.Light bound env ∧ LightAll bound env ns

end

end Node

namespace Numbering

variable {p : Program} {b : Bindings}

theorem form_of_place {a : Access} {place : Place} (h : b.place p a = .ok place) :
    ∀ g ∈ place.forms, ∃ f ∈ a.indices, b.form f = .ok g := by
  obtain ⟨gs, hgs, h⟩ := bind_eq_ok.1 h
  cases h
  intro g hg
  obtain ⟨i, hi, rfl⟩ := List.mem_map.1 hg
  exact b.traverses_forms.exists_of_mem hgs (List.of_mem_zip hi).1

theorem form_of_expr {e : Expr} {next : Nat} {value : KernelExpr} {places : List Place}
    (h : b.expr p next e = .ok (value, places)) :
    ∀ g ∈ value.forms ++ places.flatMap Place.forms, ∃ f ∈ e.forms, b.form f = .ok g := by
  induction e generalizing next value places with
  | const v =>
    cases h
    simp [KernelExpr.forms]
  | iter name =>
    obtain ⟨f, hf, h⟩ := bind_eq_ok.1 h
    cases h
    intro g hg
    obtain rfl : g = f := by simpa [KernelExpr.forms] using hg
    exact ⟨_, List.mem_cons_self, hf⟩
  | load a =>
    obtain ⟨place, hplace, h⟩ := bind_eq_ok.1 h
    cases h
    intro g hg
    exact form_of_place hplace g (by simpa [KernelExpr.forms] using hg)
  | binary op l r ihl ihr =>
    obtain ⟨⟨lv, ls⟩, hl, h⟩ := bind_eq_ok.1 h
    obtain ⟨⟨rv, rs⟩, hr, h⟩ := bind_eq_ok.1 h
    cases h
    intro g hg
    have hsplit : g ∈ lv.forms ++ ls.flatMap Place.forms ∨ g ∈ rv.forms ++ rs.flatMap Place.forms := by
      simp only [KernelExpr.forms, List.flatMap_append, List.mem_append] at hg ⊢
      tauto
    rcases hsplit with hg | hg
    · obtain ⟨f, hf, hfg⟩ := ihl hl g hg
      exact ⟨f, List.mem_append_left _ hf, hfg⟩
    · obtain ⟨f, hf, hfg⟩ := ihr hr g hg
      exact ⟨f, List.mem_append_right _ hf, hfg⟩
  | neg e ih =>
    obtain ⟨⟨v, es⟩, he, h⟩ := bind_eq_ok.1 h
    cases h
    exact fun g hg => ih he g hg
  | call f e ih =>
    obtain ⟨⟨v, es⟩, he, h⟩ := bind_eq_ok.1 h
    cases h
    exact fun g hg => ih he g hg

theorem form_of_statement {scope : Scope} {l : Leaf} {st : Statement} {c : Computation}
    (hc : FromLeaf p scope l st c) : ∀ g ∈ st.forms, g ∈ st.iterators ∨
      ∃ f ∈ c.forms, Bindings.form ⟨c.name, c.iterators.zip st.iterators⟩ f = .ok g := by
  intro g hg
  simp only [Statement.forms, List.flatMap_append, List.flatMap_cons, List.flatMap_nil, List.append_nil,
    List.mem_append] at hg
  obtain (hg | hg | hg) | hg := hg
  · exact Or.inl hg
  · obtain ⟨f, hf, hfg⟩ := form_of_expr hc.value g (List.mem_append_right _ hg)
    exact Or.inr ⟨f, List.mem_append_left _ hf, hfg⟩
  · obtain ⟨f, hf, hfg⟩ := form_of_place hc.store g hg
    exact Or.inr ⟨f, List.mem_append_right _ hf, hfg⟩
  · obtain ⟨f, hf, hfg⟩ := form_of_expr hc.value g (List.mem_append_left _ hg)
    exact Or.inr ⟨f, List.mem_append_left _ hf, hfg⟩

section Leaf

variable {scope : Scope} {l : Leaf} {bound : Nat} (hp : p.WellFormed) (hscoped : l.Scoped p scope)
  (hlight : l.Light p bound) (hbound : 0 < bound)
include hp hscoped hlight hbound

theorem exists_lightForm {c : Computation} (hc : p.computations[l.computation]? = some c)
    {gs : List KernelForm} (hgs : forms scope l.bindings = .ok gs) {f : Affine} (hf : f ∈ c.forms) :
    ∃ g, Bindings.form ⟨c.name, c.iterators.zip gs⟩ f = .ok g ∧ g.weight * bound < 9223372036854775808 := by
  obtain ⟨c', hc', hlength⟩ := hscoped.computation
  cases hc.symm.trans hc'
  have hcovers := covers_zip c.name (((traverses_forms scope).length_eq hgs).trans hlength)
  have hmost : ∀ v ∈ c.iterators.zip gs, v.2.weight ≤ l.weight := fun v hv =>
    weight_of_bindings hgs v.2 (List.of_mem_zip hv).2
  have hsmall := hlight.forms c hc f hf
  rw [← Nat.mul_assoc] at hsmall
  have hfits : f.weight * l.weight < 9223372036854775808 :=
    Nat.lt_of_le_of_lt (Nat.le_mul_of_pos_right _ hbound) hsmall
  have hover := (hp c (List.mem_of_getElem? hc)).over_forms f hf
  obtain ⟨g, hg, hle⟩ := exists_boundForm hcovers hmost hover l.one_le_weight hfits
  exact ⟨g, hg, Nat.lt_of_le_of_lt (Nat.mul_le_mul_right _ hle) hsmall⟩

theorem evaluates_statement {st : Statement} (hst : statement p scope l = .ok st) {env : Env}
    (henv : ∀ n, (env.getD n 0).natAbs ≤ bound) : ∀ g ∈ st.forms, FailsOnly (fun _ => False) (g.eval env) := by
  obtain ⟨c, hc⟩ := fromLeaf_of_statement hst
  intro g hg
  have hsmall : g.weight * bound < 9223372036854775808 := by
    rcases form_of_statement hc g hg with hg | ⟨f, hf, hfg⟩
    · exact Nat.lt_of_le_of_lt (Nat.mul_le_mul_right _ (weight_of_bindings hc.iterators g hg)) hlight.bindings
    · obtain ⟨g', hg', hsmall⟩ := exists_lightForm hp hscoped hlight hbound hc.computation hc.iterators hf
      cases hfg.symm.trans hg'
      exact hsmall
  obtain ⟨n, hn⟩ := KernelForm.exists_eval henv hbound hsmall
  rw [hn]
  exact .ok n

end Leaf

theorem composes_of_light (hp : p.WellFormed) {bound : Nat} (hbound : 0 < bound) {l : Leaf}
    (hlight : l.Light p bound) : Composes (fun _ => False) p l := by
  intro scope c gs hscoped hc hgs f hf
  obtain ⟨g, hg, -⟩ := exists_lightForm hp hscoped hlight hbound hc hgs hf
  rw [hg]
  exact .ok g

theorem evaluates_range {scope : Scope} {next : Nat} {h : Header} {r : Range} (hr : RangeOf scope next h r)
    {bound : Nat} (hbound : 0 < bound) (hlimits : ∀ f ∈ h.limits, f.weight * bound < 9223372036854775808)
    {env : Env} (henv : ∀ n, (env.getD n 0).natAbs ≤ bound) :
    ∀ g ∈ r.forms, FailsOnly (fun _ => False) (g.eval env) := by
  intro g hg
  obtain ⟨f, hf, hfg⟩ := form_of_range hr g hg
  obtain ⟨n, hn⟩ := KernelForm.exists_eval henv hbound (by rw [weight_of_form hfg]; exact hlimits f hf)
  rw [hn]
  exact .ok n

theorem getD_le {env : Env} {bound : Nat} (henv : ∀ v ∈ env, v.natAbs ≤ bound) (n : Nat) :
    (env.getD n 0).natAbs ≤ bound := by
  rw [List.getD_eq_getElem?_getD]
  cases hn : env[n]? with
  | none => simp
  | some v => exact henv v (List.mem_of_getElem? hn)

mutual

theorem evaluates_node (hp : p.WellFormed) {bound : Nat} (hbound : 0 < bound) {scope : Scope} {next next' : Nat}
    (n : LoopNest.Node) {k : Kernel.Node} (hk : node p scope next n = .ok (k, next')) {env : Env}
    (hlength : scope.length = env.length)
    (henv : ∀ v ∈ env, v.natAbs ≤ bound) (hscoped : n.Scoped p scope)
    (hleaves : ∀ l ∈ n.leaves, l.Light p bound) (hlight : n.Light bound (valuation scope env)) :
    k.Evaluates (fun _ => False) env := by
  cases n with
  | leaf l =>
    obtain ⟨st, hst, rfl, -⟩ := node_leaf_eq_ok hk
    exact evaluates_statement hp hscoped (hleaves l List.mem_cons_self) hbound hst (getD_le henv)
  | loop h body =>
    obtain ⟨r, ks, hr, hbody, rfl⟩ := node_loop_eq_ok hk
    refine ⟨evaluates_range hr hbound hlight.1 (getD_le henv), fun v hv => ?_⟩
    rw [values_of_range hlength hr] at hv
    obtain ⟨hle, hinner⟩ := hlight.2 v hv
    exact evaluates_nodes hp hbound body hbody (by simp [hlength]) (List.forall_mem_cons.2 ⟨hle, henv⟩) hscoped.2
      hleaves hinner

theorem evaluates_nodes (hp : p.WellFormed) {bound : Nat} (hbound : 0 < bound) {scope : Scope}
    {next next' : Nat} (ns : List LoopNest.Node) {ks : List Kernel.Node}
    (hk : nodes p scope next ns = .ok (ks, next')) {env : Env} (hlength : scope.length = env.length)
    (henv : ∀ v ∈ env, v.natAbs ≤ bound) (hscoped : Node.ScopedAll p scope ns)
    (hleaves : ∀ l ∈ Node.leavesAll ns, l.Light p bound) (hlight : Node.LightAll bound (valuation scope env) ns) :
    EvaluatesAll (fun _ => False) env ks := by
  cases ns with
  | nil =>
    cases hk
    trivial
  | cons n ns =>
    obtain ⟨k, mid, rest, hn, hns, rfl⟩ := nodes_cons_eq_ok hk
    have hfirst := fun l hl => hleaves l (List.mem_append_left _ hl)
    have hrest := fun l hl => hleaves l (List.mem_append_right _ hl)
    exact ⟨evaluates_node hp hbound n hn hlength henv hscoped.1 hfirst hlight.1,
      evaluates_nodes hp hbound ns hns hlength henv hscoped.2 hrest hlight.2⟩

end

end Numbering

end Light

namespace Kernel

variable {p : Program} {roots : List LoopNest.Node} {k : Kernel} {P : Fault → Prop}

theorem means_of_tree (hk : ofTree p roots = .ok k) (he : EvaluatesAll P [] k.body) :
    List.Forall₂ (fun i id => ∃ c, Means P p c i id) k.instances (Node.pointsAll outermost roots) := by
  obtain ⟨⟨body, loops⟩, hbody, hk⟩ := bind_eq_ok.1 hk
  cases hk
  exact Numbering.means_of_nodes roots hbody rfl [] he

theorem exists_instances_of_light (hwf : p.WellFormed) (hscoped : Node.ScopedAll p [] roots) {bound : Nat}
    (hbound : 0 < bound) (hleaves : ∀ l ∈ Node.leavesAll roots, l.Light p bound)
    (hlight : Node.LightAll bound outermost roots) : ∃ k is, ofTree p roots = .ok k ∧
      List.Forall₂ (fun i id => ∃ c, Means (fun _ => False) p c i id) is (Node.pointsAll outermost roots) ∧
      ∀ {ε σ : Type} (visit : Instance → σ → Outcome ε σ) (s : σ), k.walk visit s = visitAll visit is s := by
  have hcompiles := ofTree_failsOnly_of_scoped hscoped fun l hl =>
    Numbering.composes_of_light hwf hbound (hleaves l hl)
  cases hk : ofTree p roots with
  | error e => exact absurd hk (hcompiles e)
  | ok k =>
    obtain ⟨⟨body, loops⟩, hbody, hbodyk⟩ := bind_eq_ok.1 hk
    cases hbodyk
    have hlength : ([] : Numbering.Scope).length = ([] : Env).length := rfl
    have he := Numbering.evaluates_nodes hwf hbound roots hbody hlength (by simp) hscoped hleaves hlight
    refine ⟨_, _, rfl, means_of_tree hk he, fun visit s => ?_⟩
    rcases walkNodes_upTo visit body he [] s with h | ⟨f | e, hf, -⟩
    · exact h
    · exact hf.elim
    · exact hf.elim

end Kernel

namespace Skewed

def description : Description where
  name := "skewed"
  params := []
  buffers := [⟨"out", ["1"], .float64, .output⟩]
  computations :=
    [{ name := "c"
       iterators := [⟨"i", "-2", "2"⟩, ⟨"j", "i", "i + 1"⟩]
       store := ⟨"out", ["4611686018427387903*i - 4611686018427387903*j"]⟩
       expr := .const 1.0 }]

def program : Program where
  name := "skewed"
  params := []
  buffers := [⟨"out", [1], .float64, .output⟩]
  computations :=
    [⟨"c", [⟨"i", .ofInt (-2), .ofInt 2⟩, ⟨"j", .var "i", ⟨[⟨1, "i"⟩], 1⟩⟩], .const 1.0,
      ⟨0, [⟨[⟨4611686018427387903, "i"⟩, ⟨-4611686018427387903, "j"⟩], 0⟩]⟩, none⟩]

def initial : List Node :=
  [.loop ⟨"i", .ofInt (-2), .ofInt 2, none, {}⟩
    [.loop ⟨"j", .var "i", ⟨[⟨1, "i"⟩], 1⟩, none, {}⟩ [.leaf ⟨0, [.var "i", .var "j"]⟩]]]

def tiled : List Node :=
  [.loop ⟨"i0", .ofInt 0, .ofInt 2, none, {}⟩
    [.loop ⟨"i1", .ofInt 0, .ofInt 3, some ⟨[⟨-3, "i0"⟩], 4⟩, {}⟩
      [.loop ⟨"j", ⟨[⟨3, "i0"⟩, ⟨1, "i1"⟩], -2⟩, ⟨[⟨3, "i0"⟩, ⟨1, "i1"⟩], -1⟩, none, {}⟩
        [.leaf ⟨0, [⟨[⟨3, "i0"⟩, ⟨1, "i1"⟩], -2⟩, .var "j"]⟩]]]]

end Skewed

end LoopNest
