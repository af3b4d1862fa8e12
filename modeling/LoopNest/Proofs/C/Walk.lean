import LoopNest.Affine.Lemmas
import LoopNest.Proofs.C.Kernel
import LoopNest.Proofs.Kernel.NamedWalk
import LoopNest.Proofs.Nest.Saved
import LoopNest.Proofs.Nest.Structure

namespace LoopNest.C

open Kernel

variable {p : Program}

section Totality

theorem indexParts_failsOnly (l : Leaf) (fs : List Affine) (strides : List Nat) :
    FailsOnlyBy .overflow (indexParts p l fs strides) := by
  induction fs generalizing strides with
  | nil => exact .ok _
  | cons f fs ih =>
    cases strides with
    | nil => exact .ok _
    | cons stride strides =>
      exact (Affine.bindVars_failsOnly f _).bind fun g _ => (ih strides).bind fun rest _ => .ok _

theorem ofAccess_failsOnly {names : List String} {a : Access} (ha : a.WellFormed p.buffers names) (l : Leaf) :
    FailsOnlyBy .overflow (ofAccess p l a) := by
  obtain ⟨b, hb, -⟩ := ha.buffer
  simp only [ofAccess, hb]
  exact (indexParts_failsOnly l a.indices b.strides).bind fun parts _ => .ok _

theorem ofExpr_failsOnly {names : List String} {e : LoopNest.Expr} (he : e.WellFormed p.buffers names) (l : Leaf) :
    FailsOnlyBy .overflow (ofExpr p l e) := by
  induction e with
  | const v => exact .ok _
  | iter name => exact (Affine.bindVars_failsOnly _ _).bind fun f _ => .ok _
  | load a => exact ofAccess_failsOnly (he.loads a List.mem_cons_self) l
  | binary op lhs rhs ihl ihr => exact (ihl he.left).bind fun lhs _ => (ihr he.right).bind fun rhs _ => .ok _
  | neg e ih => exact (ih ⟨he.loads, he.iterators⟩).bind fun e _ => .ok _
  | call f e ih => exact (ih ⟨he.loads, he.iterators⟩).bind fun e _ => .ok _

mutual

theorem ofNode_failsOnly (hwf : p.WellFormed) (n : LoopNest.Node) {names : List String} (hn : n.Scoped p names) :
    FailsOnlyBy .overflow (ofNode p n) := by
  cases n with
  | leaf l =>
    obtain ⟨c, hc, -⟩ := hn.computation
    have hwell := hwf c (List.mem_of_getElem? hc)
    simp only [ofNode, assignment, hc]
    exact (ofAccess_failsOnly hwell.store l).bind fun _ _ => (ofExpr_failsOnly hwell.expr l).bind fun _ _ => .ok _
  | loop h body => exact (ofNodes_failsOnly hwf body hn.2).bind fun inner _ => .ok _

theorem ofNodes_failsOnly (hwf : p.WellFormed) (ns : List LoopNest.Node) {names : List String}
    (hns : Node.ScopedAll p names ns) : FailsOnlyBy .overflow (ofNodes p ns) := by
  cases ns with
  | nil => exact .ok _
  | cons n ns =>
    exact (ofNode_failsOnly hwf n hns.1).bind fun s _ => (ofNodes_failsOnly hwf ns hns.2).bind fun rest _ => .ok _

end

theorem kernelText_failsOnly (hwf : p.WellFormed) {roots : List LoopNest.Node} (hroots : Node.ScopedAll p [] roots) :
    FailsOnlyBy .overflow (kernelText p roots) := (ofNodes_failsOnly hwf roots hroots).bind fun _ _ => .ok _

end Totality

section Offsets

theorem offsetFrom_eq_total {vs : List Int} {shape strides : List Nat} (hshape : vs.length = shape.length)
    (hstrides : vs.length = strides.length) {start o : Nat}
    (h : offsetFrom start (vs.zip (shape.zip strides)) = some o) :
    (o : Int) = start + total ((vs.zip strides).map fun i => i.1 * (i.2 : Int)) := by
  induction vs generalizing shape strides start with
  | nil =>
    cases h
    simp
  | cons v vs ih =>
    obtain ⟨extent, shape, rfl⟩ := List.exists_cons_of_length_eq_add_one hshape.symm
    obtain ⟨stride, strides, rfl⟩ := List.exists_cons_of_length_eq_add_one hstrides.symm
    rw [List.zip_cons_cons, List.zip_cons_cons, offsetFrom] at h
    split at h
    · cases h
    · next hin =>
      have hv : (v.toNat : Int) = v := by omega
      rw [ih (Nat.succ.inj hshape) (Nat.succ.inj hstrides) h, List.zip_cons_cons, List.map_cons, total_cons,
        Int.natCast_add, Int.natCast_mul, hv, Int.add_assoc]

end Offsets

section Scopes

def frames (scope : Numbering.Scope) (env : Env) : List (String × Int) := (scope.map variableName).zip env

theorem variableName_injective {a b : String} (h : variableName a = variableName b) : a = b := by
  have hchars := congrArg String.toList h
  simp only [variableName, String.toList_append] at hchars
  exact String.toList_injective (List.append_cancel_left hchars)

theorem binds_frames {scope : Numbering.Scope} {env : Env} (hlength : scope.length = env.length) :
    Binds (frames scope env) scope (Numbering.valuation scope env) := by
  induction scope generalizing env with
  | nil => exact fun a ha => absurd ha List.not_mem_nil
  | cons d scope ih =>
    obtain ⟨v, env, rfl⟩ := List.exists_cons_of_length_eq_add_one hlength.symm
    intro a ha
    rw [frames, List.map_cons, List.zip_cons_cons, List.lookup_cons, Numbering.valuation]
    by_cases hd : a = d
    · subst hd
      rw [beq_self_eq_true, Function.update_self]
    · have hne : (variableName a == variableName d) = false := by
        rw [beq_eq_false_iff_ne]
        exact fun h => hd (variableName_injective h)
      rw [hne, Function.update_of_ne hd]
      exact ih (by simpa using hlength) a ((List.mem_cons.1 ha).resolve_left hd)

theorem top_update {h : Header} {names : List String} (hlimits : ∀ f ∈ h.limits, f.Over names) (hdim : h.dim ∉ names)
    (env : Valuation) (v : Int) : h.top (Function.update env h.dim v) = h.top env := by
  have hform {f : Affine} (hf : f ∈ h.limits) : f.value (Function.update env h.dim v) = f.value env := by
    refine Affine.value_congr (hlimits f hf) fun a ha => Function.update_of_ne ?_ _ _
    rintro rfl
    exact hdim ha
  cases hc : h.clamp with
  | none => simp only [Header.top, hc, hform Header.upper_mem_limits]
  | some c => simp only [Header.top, hc, hform Header.upper_mem_limits, hform (Header.clamp_mem_limits hc)]

end Scopes

section Elements

def Located (p : Program) (env : Env) (place : Place) (element : String × Int) : Prop :=
  ∃ b, p.buffers[place.buffer]? = some b ∧ element.1 = bufferVar b.name ∧
    ∀ o, place.offset env = .ok (some o) → element.2 = o

theorem buffer_place {b : Numbering.Bindings} {a : Access} {place : Place} (h : b.place p a = .ok place) :
    place.buffer = a.buffer := by
  obtain ⟨indices, -, h⟩ := bind_eq_ok.1 h
  cases h
  rfl

variable {scope : Numbering.Scope} {env : Env} {l : Leaf} {c : Computation} {gs : List KernelForm}
  (hpoint : gs.map (fun g => g.value env) = pointOf l (Numbering.valuation scope env))
include hpoint

theorem flatIndex_eq_offset {a : Access} {place : Place} {b : Buffer} (ha : a.WellFormed p.buffers c.iterators)
    (hplace : Numbering.Bindings.place ⟨c.name, c.iterators.zip gs⟩ p a = .ok place)
    (hb : p.buffers[a.buffer]? = some b) {o : Nat} (ho : place.offset env = .ok (some o)) :
    flatIndex c l b a (Numbering.valuation scope env) = o := by
  have hlocation := Numbering.location_place hplace (Place.location_eq_ok.2 ⟨_, ho, rfl⟩)
  rw [Numbering.Bindings.valueOf_zip, hpoint, Access.locationAt, hb] at hlocation
  obtain ⟨b', hb', hshape⟩ := ha.buffer
  cases hb.symm.trans hb'
  have hstrides : a.indices.length = b.strides.length := by
    rw [Buffer.strides, rowMajorStrides_length, hshape]
  have hoffset := offsetFrom_eq_total (by simpa using hshape) (by simpa using hstrides)
    (congrArg Prod.snd hlocation).symm
  rw [hoffset, flatIndex, List.zip_map_left, List.map_map]
  simp [Function.comp_def]

variable (hlength : scope.length = env.length)
include hlength

theorem exists_element {a : Access} {place : Place} (ha : a.WellFormed p.buffers c.iterators)
    (hplace : Numbering.Bindings.place ⟨c.name, c.iterators.zip gs⟩ p a = .ok place) {x : String × Formula}
    (hx : Addresses p scope l c a x) :
    ∃ element, Evaluates (frames scope env) x element ∧ Located p env place element := by
  obtain ⟨b, hb, hname, hindex⟩ := hx
  refine ⟨(x.1, flatIndex c l b a (Numbering.valuation scope env)), ⟨rfl, hindex _ _ (binds_frames hlength)⟩, b, ?_,
    hname, fun o ho => flatIndex_eq_offset hpoint ha hplace hb ho⟩
  rw [buffer_place hplace, hb]

theorem exists_elements {as : List Access}
    (has : ∀ a ∈ as, a.WellFormed p.buffers c.iterators) {places : List Place}
    (hplaces : List.Forall₂ (fun a place => Numbering.Bindings.place ⟨c.name, c.iterators.zip gs⟩ p a = .ok place)
      as places) {xs : List (String × Formula)} (hxs : List.Forall₂ (Addresses p scope l c) as xs) :
    ∃ elements, List.Forall₂ (Evaluates (frames scope env)) xs elements ∧
      List.Forall₂ (Located p env) places elements := by
  induction hplaces generalizing xs with
  | nil =>
    cases hxs
    exact ⟨[], .nil, .nil⟩
  | cons hplace _ ih =>
    cases hxs with
    | cons hx hxs =>
      obtain ⟨ha, has⟩ := List.forall_mem_cons.1 has
      obtain ⟨element, helement, hlocated⟩ := exists_element hpoint hlength ha hplace hx
      obtain ⟨elements, helements, hall⟩ := ih has hxs
      exact ⟨element :: elements, .cons helement helements, .cons hlocated hall⟩

end Elements

/-- The event is this run of the statement of a leaf below these loops: its assignment is executed, the loop
variables have the values of the walk, and the elements are those that are stored and read. -/
structure Agrees (p : Program) (stack : List Header × Leaf) (e : Event) (i : Instance) : Prop where
  statement : Numbering.statement p (stack.1.map Header.dim).reverse stack.2 = .ok i.statement
  text : ∃ s, assignment p stack.2 = .ok s ∧ tokens (s.text 0).toList = e.ts ++ [.mark ';']
  depth : i.env.length = stack.1.length
  counters : e.scope = frames (stack.1.map Header.dim).reverse i.env
  elements : List.Forall₂ (Located p i.env) (i.statement.store :: i.statement.reads) e.elements

section Runs

def AgreesBelow (p : Program) (around : List Header) (below : List (List Header × Leaf)) (e : Event) (i : Instance) :
    Prop := ∃ s ∈ below, Agrees p (around ++ s.1, s.2) e i

abbrev scopeOf (around : List Header) : Numbering.Scope := (around.map Header.dim).reverse

theorem scopeOf_append (around : List Header) (h : Header) : scopeOf (around ++ [h]) = h.dim :: scopeOf around := by
  simp [scopeOf]

theorem AgreesBelow.loop {around : List Header} {h : Header} {below : List (List Header × Leaf)} {e : Event}
    {i : Instance} (he : AgreesBelow p (around ++ [h]) below e i) :
    AgreesBelow p around (below.map fun s => (h :: s.1, s.2)) e i := by
  obtain ⟨s, hs, hagrees⟩ := he
  refine ⟨_, List.mem_map_of_mem hs, ?_⟩
  rwa [List.append_assoc, List.singleton_append] at hagrees

theorem AgreesBelow.mono {around : List Header} {below below' : List (List Header × Leaf)} (hsub : below ⊆ below')
    {e : Event} {i : Instance} (he : AgreesBelow p around below e i) : AgreesBelow p around below' e i := by
  obtain ⟨s, hs, hagrees⟩ := he
  exact ⟨s, hsub hs, hagrees⟩

theorem runs_leaf (hwf : p.WellFormed) {around : List Header} {env : Env} (hlength : env.length = around.length)
    {l : Leaf} {code : Code} (hmatches : Matches p (scopeOf around) (.leaf l) code) {st : LoopNest.Statement}
    (hst : Numbering.statement p (scopeOf around) l = .ok st) (concurrent : List Iteration) :
    ∃ e, code.Runs (frames (scopeOf around) env) [e] ∧ Agrees p (around, l) e ⟨st, env, concurrent⟩ := by
  cases code with
  | loop counter first goOn body => exact hmatches.elim
  | assign ts subscripts =>
    obtain ⟨c, s, hc, hs, htext, hsubscripts⟩ := hmatches
    obtain ⟨c', hleaf⟩ := Numbering.fromLeaf_of_statement hst
    cases hc.symm.trans hleaf.computation
    have hscope : (scopeOf around).length = env.length := by simp [scopeOf, hlength]
    obtain ⟨elements, helements, hlocated⟩ := exists_elements
      (Numbering.values_of_forms hscope hleaf.iterators) hscope (hwf c (List.mem_of_getElem? hc)).accesses
      (.cons hleaf.store (Numbering.locations_expr hleaf.value)) hsubscripts
    exact ⟨⟨ts, _, elements⟩, ⟨elements, helements, rfl⟩, hst, ⟨s, hs, htext⟩, hlength, rfl, hlocated⟩

mutual

theorem runs_node (hwf : p.WellFormed) (n : LoopNest.Node) (around : List Header) {next next' : Nat}
    {k : Kernel.Node} (hk : Numbering.node p (scopeOf around) next n = .ok (k, next')) {code : Code}
    (hmatches : Matches p (scopeOf around) n code) (hn : n.Scoped p (scopeOf around))
    (hdims : (scopeOf around ++ n.dims).Nodup) {env : Env} (hlength : env.length = around.length)
    (concurrent : List Iteration) : ∃ es, code.Runs (frames (scopeOf around) env) es ∧
      List.Forall₂ (AgreesBelow p around n.leafStacks) es (instancesNode env concurrent k) := by
  cases n with
  | leaf l =>
    obtain ⟨st, hst, rfl, -⟩ := Numbering.node_leaf_eq_ok hk
    obtain ⟨e, he, hagrees⟩ := runs_leaf hwf hlength hmatches hst concurrent
    refine ⟨[e], he, .cons ⟨([], l), List.mem_cons_self, ?_⟩ .nil⟩
    rwa [List.append_nil]
  | loop h body =>
    cases code with
    | assign ts subscripts => exact hmatches.elim
    | loop counter first goOn code =>
      obtain ⟨rfl, hfirst, hgoOn, hcode⟩ := hmatches
      obtain ⟨r, ks, hr, hbody, rfl⟩ := Numbering.node_loop_eq_ok hk
      obtain ⟨hlimits, hscoped⟩ := hn
      have hscope : (scopeOf around).length = env.length := by simp [scopeOf, hlength]
      have hdim : h.dim ∉ scopeOf around := fun hmem =>
        (List.nodup_append'.1 hdims).2.2 hmem List.mem_cons_self
      have hbelow : (scopeOf (around ++ [h]) ++ Node.dimsAll body).Nodup := by
        rw [scopeOf_append]
        rw [Node.dims] at hdims
        exact hdims.perm List.perm_middle
      -- the test is made inside the loop, where its limits do not see the loop variable
      have htest (v : Int) : goOn.value ((variableName h.dim, v) :: frames (scopeOf around) env) =
          some (if v < h.top (Numbering.valuation (scopeOf around) env) then 1 else 0) := by
        have hinner : (h.dim :: scopeOf around).length = (v :: env).length := congrArg (· + 1) hscope
        have hgo := hgoOn _ _ (binds_frames hinner)
        simp only [Numbering.valuation, Function.update_self, top_update hlimits hdim] at hgo
        exact hgo
      rw [← scopeOf_append] at hcode hscoped hbody
      -- for the body this loop is the innermost around it
      have hiteration (v : Int) : ∃ es,
          Code.RunsAll ((variableName h.dim, v) :: frames (scopeOf around) env) code es ∧
          List.Forall₂ (AgreesBelow p around (LoopNest.Node.loop h body).leafStacks) es
            (instancesNodes (v :: env) (r.inside env concurrent v) ks) := by
        have hinner : (v :: env).length = (around ++ [h]).length := by simp [hlength]
        obtain ⟨es, hes, hagrees⟩ :=
          runs_nodes hwf body _ hbody hcode hscoped hbelow hinner (r.inside env concurrent v)
        rw [scopeOf_append] at hes
        exact ⟨es, hes, hagrees.imp fun e i he => he.loop⟩
      rw [instancesNode, Numbering.values_of_range hscope hr]
      obtain ⟨es, hes, hagrees⟩ := exists_iterates htest rfl fun v _ => hiteration v
      exact ⟨es, ⟨_, hfirst _ _ (binds_frames hscope), hes⟩, hagrees⟩

theorem runs_nodes (hwf : p.WellFormed) (ns : List LoopNest.Node) (around : List Header) {next next' : Nat}
    {ks : List Kernel.Node} (hk : Numbering.nodes p (scopeOf around) next ns = .ok (ks, next')) {codes : List Code}
    (hmatches : MatchesAll p (scopeOf around) ns codes) (hns : Node.ScopedAll p (scopeOf around) ns)
    (hdims : (scopeOf around ++ Node.dimsAll ns).Nodup) {env : Env} (hlength : env.length = around.length)
    (concurrent : List Iteration) : ∃ es, Code.RunsAll (frames (scopeOf around) env) codes es ∧
      List.Forall₂ (AgreesBelow p around (Node.leafStacksAll ns)) es (instancesNodes env concurrent ks) := by
  cases ns with
  | nil =>
    cases codes with
    | cons code codes => exact hmatches.elim
    | nil =>
      cases hk
      exact ⟨[], rfl, .nil⟩
  | cons n ns =>
    cases codes with
    | nil => exact hmatches.elim
    | cons code codes =>
      obtain ⟨k, mid, rest, hn, hrest, rfl⟩ := Numbering.nodes_cons_eq_ok hk
      rw [Node.dimsAll, ← List.append_assoc] at hdims
      have hleft := (List.nodup_append'.1 hdims).1
      have hright : (scopeOf around ++ Node.dimsAll ns).Nodup := hdims.sublist
        ((List.sublist_append_left _ _).append_right _)
      obtain ⟨es, hes, hagrees⟩ := runs_node hwf n around hn hmatches.1 hns.1 hleft hlength concurrent
      obtain ⟨us, hus, hagrees'⟩ := runs_nodes hwf ns around hrest hmatches.2 hns.2 hright hlength concurrent
      refine ⟨es ++ us, ⟨es, us, hes, hus, rfl⟩, List.rel_append ?_ ?_⟩
      · exact hagrees.imp fun e i he => he.mono (List.subset_append_left _ _)
      · exact hagrees'.imp fun e i he => he.mono (List.subset_append_right _ _)

end

end Runs

/-- The text of a kernel is read as code that has one run. In it the statements of the walk are executed in their
order, with the values of the walk for the loop variables, and every subscript is the offset of its access. The walk
and the text fail only where a number leaves the range of a word. -/
theorem kernel_executes_walk {description : Description} (hp : description.build = .ok p)
    (hnames : p.NamedByIdentifiers) (hbuffers : ∀ b ∈ p.buffers, Name.isIdentifier b.name) {n : Nest}
    (hn : n.Reachable (Context.ofProgram p)) :
    FailsOnlyBy .overflow (kernelText p n.roots) ∧ FailsOnlyBy (.fault .overflow) (ofTree p n.roots) ∧
      ∀ text k, kernelText p n.roots = .ok text → ofTree p n.roots = .ok k →
        ∃ code es is, readKernel (tokens text.toList) = some code ∧
          (∀ es', Code.RunsAll [] code es' ↔ es' = es) ∧
          List.Forall₂ (fun e i => ∃ stack ∈ Node.leafStacksAll n.roots, Agrees p stack e i) es is ∧
          ∀ {ε σ : Type} (visit : Instance → σ → Outcome ε σ) (s : σ),
            k.walk visit s = visitAll visit is s ∨ k.walk visit s = .error (.fault .overflow) := by
  have hwf := Description.wellFormed_of_build hp
  have hreshaped := Nest.reshaped_of_reachable hn
  have hsound := hreshaped.sound hwf
  have hscoped := Node.TidyAll.scoped n.roots hsound.tidy
  refine ⟨kernelText_failsOnly hwf hscoped, ofTree_failsOnly hwf hsound.tidy, fun text k htext hk => ?_⟩
  obtain ⟨code, hread, hmatches⟩ := exists_code hwf hbuffers hscoped (hreshaped.dims_identifiers hwf hnames) htext
  obtain ⟨⟨body, loops⟩, hbody, hk⟩ := bind_eq_ok.1 hk
  cases hk
  have hdepth : ([] : Env).length = ([] : List Header).length := rfl
  obtain ⟨es, hes, hagrees⟩ := runs_nodes hwf n.roots [] hbody hmatches hscoped hsound.dims hdepth []
  refine ⟨code, es, instancesNodes [] [] body, hread, fun es' => ?_, ?_, fun visit s => ?_⟩
  · exact ⟨fun h => Code.RunsAll.unique code h hes, fun h => h ▸ hes⟩
  · exact hagrees.imp fun e i he => he
  · rcases walkNodes_upTo visit body (evaluatesAll body []) [] s with h | ⟨f | e, hf, h⟩
    · exact Or.inl h
    · cases hf
      exact Or.inr h
    · cases hf

theorem kernel_executes_walk_producerConsumer : ∃ text k code es is,
    kernelText ProducerConsumer.program (ProducerConsumer.fused {}) = .ok text ∧
    ofTree ProducerConsumer.program (ProducerConsumer.fused {}) = .ok k ∧
    readKernel (tokens text.toList) = some code ∧ Code.RunsAll [] code es ∧
    List.Forall₂ (fun e i => ∃ stack ∈ Node.leafStacksAll (ProducerConsumer.fused {}),
      Agrees ProducerConsumer.program stack e i) es is ∧
    ∀ {ε σ : Type} (visit : Instance → σ → Outcome ε σ) (s : σ),
      k.walk visit s = visitAll visit is s ∨ k.walk visit s = .error (.fault .overflow) := by
  have htext : ∃ text, kernelText ProducerConsumer.program (ProducerConsumer.fused {}) = .ok text := ⟨_, rfl⟩
  have hkernel : ∃ k, ofTree ProducerConsumer.program (ProducerConsumer.fused {}) = .ok k := ⟨_, rfl⟩
  obtain ⟨text, htext⟩ := htext
  obtain ⟨k, hk⟩ := hkernel
  obtain ⟨-, -, hruns⟩ := kernel_executes_walk ProducerConsumer.build_eq ProducerConsumer.identifiers
    ProducerConsumer.buffers_identifiers ProducerConsumer.reachable.2.1
  obtain ⟨code, es, is, hread, hruns, hagrees, hwalk⟩ := hruns text k htext hk
  exact ⟨text, k, code, es, is, htext, hk, hread, (hruns es).2 rfl, hagrees, hwalk⟩

end LoopNest.C
