import LoopNest.Proofs.Kernel.Exact

namespace LoopNest

open Kernel

def Instance.id (i : Instance) : InstanceId :=
  (i.statement.computation, i.statement.iterators.map fun f => f.value i.env)

theorem Instance.point_eq {i : Instance} {point : List Int} (h : i.point = .ok point) :
    (i.statement.computation, point) = i.id := by
  rw [id, ← KernelForm.evalAll_eq_ok h]

namespace Numbering

def valuation : Scope → Env → Valuation
  | d :: scope, v :: env => Function.update (valuation scope env) d v
  | _, _ => fun _ => 0

theorem valuation_of_position {scope : Scope} {env : Env} (hlength : scope.length = env.length) {a : String}
    {slot : Nat} (h : position? (· == a) scope = some slot) : env.getD slot 0 = valuation scope env a := by
  induction scope generalizing env slot with
  | nil => cases h
  | cons d scope ih =>
    obtain ⟨v, env, rfl⟩ := List.exists_cons_of_length_eq_add_one hlength.symm
    rw [position?] at h
    split at h
    · next hd =>
      cases h
      rw [valuation, ← eq_of_beq hd, Function.update_self, List.getD_cons_zero]
    · next hd =>
      obtain ⟨slot, hslot, rfl⟩ := Option.map_eq_some_iff.1 h
      have hne : a ≠ d := by
        rintro rfl
        simp at hd
      rw [List.getD_cons_succ, valuation, Function.update_of_ne hne]
      exact ih (by simpa using hlength) hslot

theorem slots_eq_ok {scope : Scope} {ts : List Term} {us : List (Nat × Int)} (h : slots scope ts = .ok us) :
    us.map (fun u => scope[u.1]?) = ts.map (fun t => some t.atom) ∧ us.map Prod.snd = ts.map Term.coeff := by
  induction ts generalizing us with
  | nil =>
    cases h
    exact ⟨rfl, rfl⟩
  | cons t ts ih =>
    rw [slots] at h
    split at h
    · cases h
    · next slot hslot =>
      obtain ⟨rest, hrest, h⟩ := bind_eq_ok.1 h
      cases h
      obtain ⟨a, ha, hat⟩ := exists_of_position? hslot
      obtain ⟨hatoms, hcoeffs⟩ := ih hrest
      rw [List.map_cons, List.map_cons, List.map_cons, List.map_cons, hatoms, hcoeffs, ha, eq_of_beq hat]
      exact ⟨rfl, rfl⟩

section Value

variable {scope : Scope} {env : Env} (hlength : scope.length = env.length)
include hlength

theorem termsValue_slots {ts : List Term} {us : List (Nat × Int)} (h : slots scope ts = .ok us) :
    KernelForm.termsValue env us = Affine.termsValue (valuation scope env) ts := by
  induction ts generalizing us with
  | nil =>
    cases h
    rfl
  | cons t ts ih =>
    rw [slots] at h
    split at h
    · cases h
    · next slot hslot =>
      obtain ⟨rest, hrest, h⟩ := bind_eq_ok.1 h
      cases h
      rw [KernelForm.termsValue, Affine.termsValue, ih hrest, valuation_of_position hlength hslot]

theorem value_of_form {f : Affine} {g : KernelForm} (h : form scope f = .ok g) :
    g.value env = f.value (valuation scope env) := by
  obtain ⟨terms, hterms, h⟩ := bind_eq_ok.1 h
  cases h
  rw [KernelForm.value, Affine.value, termsValue_slots hlength hterms]

theorem values_of_forms {fs : List Affine} {gs : List KernelForm} (h : forms scope fs = .ok gs) :
    gs.map (fun g => g.value env) = fs.map fun f => f.value (valuation scope env) :=
  (traverses_forms scope).map_eq (fun _ _ hg => value_of_form hlength hg) h

theorem values_of_range {next : Nat} {h : Header} {r : Range} (hr : RangeOf scope next h r) :
    r.values env = h.values (valuation scope env) := by
  have htop : r.top env = h.top (valuation scope env) := by
    have hclamp := hr.clamp
    have hupper := value_of_form hlength hr.upper
    cases hc : h.clamp with
    | none =>
      rw [hc] at hclamp
      simp only [Range.top, Header.top, ← Except.ok.inj hclamp, hc, hupper]
    | some c =>
      rw [hc] at hclamp
      obtain ⟨g, hg, hclamp⟩ := bind_eq_ok.1 hclamp
      simp only [Range.top, Header.top, ← Except.ok.inj hclamp, hc, hupper, value_of_form hlength hg]
  rw [Range.values, Header.values, htop, value_of_form hlength hr.lower]

end Value

theorem form_of_range {scope : Scope} {next : Nat} {h : Header} {r : Range} (hr : RangeOf scope next h r) :
    ∀ g ∈ r.forms, ∃ f ∈ h.limits, form scope f = .ok g := by
  intro g hg
  have hcases : g = r.lower ∨ g = r.upper ∨ r.clamp = some g := by simpa [Range.forms] using hg
  rcases hcases with rfl | rfl | hg
  · exact ⟨_, Header.lower_mem_limits, hr.lower⟩
  · exact ⟨_, Header.upper_mem_limits, hr.upper⟩
  · have hclamp := hr.clamp
    cases hc : h.clamp with
    | none =>
      rw [hc] at hclamp
      cases (Except.ok.inj hclamp).trans hg
    | some f =>
      rw [hc] at hclamp
      obtain ⟨g', hg', hclamp⟩ := bind_eq_ok.1 hclamp
      cases (Except.ok.inj hclamp).trans hg
      exact ⟨f, Header.clamp_mem_limits hc, hg'⟩

mutual

theorem ids_of_node {p : Program} {scope : Scope} {next next' : Nat} (n : LoopNest.Node) {k : Kernel.Node}
    (hk : node p scope next n = .ok (k, next')) {env : Env} (hlength : scope.length = env.length)
    (concurrent : List Iteration) :
    (instancesNode env concurrent k).map Instance.id = n.points (valuation scope env) := by
  cases n with
  | leaf l =>
    obtain ⟨st, hst, rfl, -⟩ := node_leaf_eq_ok hk
    obtain ⟨c, hc⟩ := fromLeaf_of_statement hst
    simp only [instancesNode, List.map_cons, List.map_nil, Instance.id, Node.points, hc.same,
      values_of_forms hlength hc.iterators]
  | loop h body =>
    obtain ⟨r, ks, hr, hbody, rfl⟩ := node_loop_eq_ok hk
    rw [instancesNode, Node.points, List.map_flatMap, values_of_range hlength hr]
    exact List.flatMap_congr fun v _ => ids_of_nodes body hbody (by simp [hlength]) _

theorem ids_of_nodes {p : Program} {scope : Scope} {next next' : Nat} (ns : List LoopNest.Node)
    {ks : List Kernel.Node} (hk : nodes p scope next ns = .ok (ks, next')) {env : Env}
    (hlength : scope.length = env.length) (concurrent : List Iteration) :
    (instancesNodes env concurrent ks).map Instance.id = Node.pointsAll (valuation scope env) ns := by
  cases ns with
  | nil =>
    cases hk
    rfl
  | cons n ns =>
    obtain ⟨k, mid, rest, hn, hns, rfl⟩ := nodes_cons_eq_ok hk
    rw [instancesNodes, Node.pointsAll, List.map_append, ids_of_node n hn hlength,
      ids_of_nodes ns hns hlength]

end

end Numbering

abbrev outermost : Valuation := Numbering.valuation [] []

theorem Kernel.ids_of_tree {p : Program} {roots : List LoopNest.Node} {k : Kernel}
    (hk : Kernel.ofTree p roots = .ok k) :
    k.instances.map Instance.id = Node.pointsAll outermost roots := by
  obtain ⟨⟨body, loops⟩, hbody, hk⟩ := bind_eq_ok.1 hk
  cases hk
  exact Numbering.ids_of_nodes roots hbody rfl []

section Refusal

abbrev overflowing {ε : Type} : Failure ε := .fault .overflow

namespace KernelForm

theorem addTerm_failsOnly (ts : List (Nat × Int)) (slot : Nat) (c : Int) :
    FailsOnlyBy .overflow (addTerm ts slot c) := by
  induction ts with
  | nil => exact .ok _
  | cons t ts ih =>
    rw [addTerm]
    split
    · exact (Word.checked_failsOnly _).bind fun _ _ => .ok _
    · exact ih.bind fun _ _ => .ok _

theorem plusMultipleTerms_failsOnly (scale : Int) (acc ts : List (Nat × Int)) :
    FailsOnlyBy .overflow (plusMultipleTerms scale acc ts) := by
  induction ts generalizing acc with
  | nil => exact .ok _
  | cons t ts ih =>
    exact (Word.checked_failsOnly _).bind fun _ _ => (addTerm_failsOnly _ _ _).bind fun next _ => ih next

theorem plusMultiple_failsOnly (f g : KernelForm) (scale : Int) :
    FailsOnlyBy .overflow (f.plusMultiple g scale) :=
  (Word.checked_failsOnly _).bind fun _ _ => (Word.checked_failsOnly _).bind fun _ _ =>
    (plusMultipleTerms_failsOnly _ _ _).bind fun _ _ => .ok _

end KernelForm

namespace Numbering

variable {p : Program} {scope : Scope}

theorem exists_slots {ts : List Term} (h : ∀ t ∈ ts, t.atom ∈ scope) : ∃ us, slots scope ts = .ok us := by
  induction ts with
  | nil => exact ⟨[], rfl⟩
  | cons t ts ih =>
    obtain ⟨us, hus⟩ := ih fun u hu => h u (List.mem_cons_of_mem t hu)
    rw [slots]
    split
    · next hnone =>
      rw [position?_eq_findIdx?, List.findIdx?_eq_none_iff] at hnone
      simpa using hnone t.atom (h t List.mem_cons_self)
    · next slot _ => exact ⟨(slot, t.coeff) :: us, by rw [hus]; rfl⟩

theorem exists_form {f : Affine} (h : f.Over scope) : ∃ g, form scope f = .ok g := by
  obtain ⟨us, hus⟩ := exists_slots (Affine.over_iff.1 h)
  exact ⟨⟨us, f.constant⟩, by rw [form, hus]; rfl⟩

theorem exists_clampForm {o : Option Affine} (h : ∀ f, o = some f → f.Over scope) :
    ∃ g, clampForm scope o = .ok g := by
  cases o with
  | none => exact ⟨none, rfl⟩
  | some f =>
    obtain ⟨g, hg⟩ := exists_form (h f rfl)
    exact ⟨some g, by rw [clampForm, hg]; rfl⟩

section Bindings

variable {b : Bindings}

def Bindings.Covers (b : Bindings) (names : List String) : Prop :=
  ∀ a ∈ names, ∃ v, b.values.find? (fun v => v.1 == a) = some v

theorem covers_zip (name : String) {names : List String} {gs : List KernelForm}
    (h : gs.length = names.length) : Bindings.Covers ⟨name, names.zip gs⟩ names := by
  intro a ha
  have hkeys : (names.zip gs).map Prod.fst = names := List.map_fst_zip (Nat.le_of_eq h.symm)
  refine Option.isSome_iff_exists.1 (List.find?_isSome.2 ?_)
  rw [← hkeys] at ha
  obtain ⟨v, hv, rfl⟩ := List.mem_map.1 ha
  exact ⟨v, hv, beq_self_eq_true _⟩

theorem sum_failsOnly {names : List String} (hb : b.Covers names) {ts : List Term}
    (h : ∀ t ∈ ts, t.atom ∈ names) (acc : KernelForm) : FailsOnlyBy overflowing (b.sum acc ts) := by
  induction ts generalizing acc with
  | nil => exact .ok _
  | cons t ts ih =>
    obtain ⟨v, hv⟩ := hb t.atom (h t List.mem_cons_self)
    simp only [Bindings.sum, hv]
    exact (KernelForm.plusMultiple_failsOnly _ _ _).lift.bind fun next _ =>
      ih (fun u hu => h u (List.mem_cons_of_mem t hu)) next

variable {P : Failure NumberingError → Prop}

theorem place_failsOnly {a : Access} (h : ∀ f ∈ a.indices, FailsOnly P (b.form f)) :
    FailsOnly P (b.place p a) := (b.traverses_forms.failsOnly h).bind fun _ _ => .ok _

theorem expr_failsOnly {e : Expr} (h : ∀ f ∈ e.forms, FailsOnly P (b.form f)) (next : Nat) :
    FailsOnly P (b.expr p next e) := by
  induction e generalizing next with
  | const v => exact .ok _
  | iter name => exact (h _ List.mem_cons_self).bind fun _ _ => .ok _
  | load a => exact (place_failsOnly h).bind fun _ _ => .ok _
  | binary op l r ihl ihr =>
    have hl := ihl fun f hf => h f (List.mem_append_left _ hf)
    have hr := ihr fun f hf => h f (List.mem_append_right _ hf)
    exact (hl _).bind fun _ _ => (hr _).bind fun _ _ => .ok _
  | neg e ih => exact (ih h _).bind fun _ _ => .ok _
  | call f e ih => exact (ih h _).bind fun _ _ => .ok _

end Bindings

def Composes (P : Failure NumberingError → Prop) (p : Program) (l : Leaf) : Prop :=
  ∀ scope c gs, l.Scoped p scope → p.computations[l.computation]? = some c → forms scope l.bindings = .ok gs →
    ∀ f ∈ c.forms, FailsOnly P (Bindings.form ⟨c.name, c.iterators.zip gs⟩ f)

theorem composes_of_wellFormed (hp : p.WellFormed) (l : Leaf) : Composes (· = overflowing) p l := by
  intro scope c gs hl hc hgs f hf
  obtain ⟨c', hc', hlength⟩ := hl.computation
  cases hc.symm.trans hc'
  have hover := (hp c (List.mem_of_getElem? hc)).over_forms f hf
  exact sum_failsOnly (covers_zip c.name (((traverses_forms scope).length_eq hgs).trans hlength))
    (Affine.over_iff.1 hover) _

variable {P : Failure NumberingError → Prop}

theorem statement_failsOnly {l : Leaf} (hl : l.Scoped p scope) (h : Composes P p l) :
    FailsOnly P (statement p scope l) := by
  obtain ⟨c, hc, -⟩ := hl.computation
  obtain ⟨gs, hgs⟩ := (traverses_forms scope).exists_ok fun f hf => exists_form (hl.inScope f hf)
  have hforms := h scope c gs hl hc hgs
  simp only [statement, statementOf, hc, hgs, ok_bind]
  exact (expr_failsOnly (fun f hf => hforms f (List.mem_append_left _ hf)) 0).bind fun _ _ =>
    (place_failsOnly fun f hf => hforms f (List.mem_append_right _ hf)).bind fun _ _ => .ok _

mutual

theorem node_failsOnly (n : LoopNest.Node) {scope : Scope} (hn : n.Scoped p scope)
    (h : ∀ l ∈ n.leaves, Composes P p l) (next : Nat) : FailsOnly P (node p scope next n) := by
  cases n with
  | leaf l => exact (statement_failsOnly hn (h l List.mem_cons_self)).bind fun _ _ => .ok _
  | loop hd body =>
    obtain ⟨hheader, hbody⟩ := hn
    obtain ⟨lower, hlower⟩ := exists_form (hheader _ Header.lower_mem_limits)
    obtain ⟨upper, hupper⟩ := exists_form (hheader _ Header.upper_mem_limits)
    obtain ⟨clamp, hclamp⟩ := exists_clampForm fun f hf => hheader f (Header.clamp_mem_limits hf)
    rw [node, hlower, ok_bind, hupper, ok_bind, hclamp, ok_bind]
    exact (nodes_failsOnly body hbody h _).bind fun _ _ => .ok _

theorem nodes_failsOnly (ns : List LoopNest.Node) {scope : Scope} (hns : Node.ScopedAll p scope ns)
    (h : ∀ l ∈ Node.leavesAll ns, Composes P p l) (next : Nat) : FailsOnly P (nodes p scope next ns) := by
  cases ns with
  | nil => exact .ok _
  | cons n ns =>
    exact (node_failsOnly n hns.1 (fun l hl => h l (List.mem_append_left _ hl)) _).bind fun _ _ =>
      (nodes_failsOnly ns hns.2 (fun l hl => h l (List.mem_append_right _ hl)) _).bind fun _ _ => .ok _

end

end Numbering

theorem Kernel.ofTree_failsOnly_of_scoped {p : Program} {roots : List LoopNest.Node}
    (hscoped : Node.ScopedAll p [] roots) {P : Failure NumberingError → Prop}
    (h : ∀ l ∈ Node.leavesAll roots, Numbering.Composes P p l) : FailsOnly P (Kernel.ofTree p roots) :=
  (Numbering.nodes_failsOnly roots hscoped h 0).bind fun _ _ => .ok _

theorem Kernel.ofTree_failsOnly {p : Program} (hp : p.WellFormed) {roots : List LoopNest.Node}
    (h : Node.TidyAll p [] roots) : FailsOnlyBy overflowing (Kernel.ofTree p roots) :=
  ofTree_failsOnly_of_scoped (h.scoped roots) fun l _ => Numbering.composes_of_wellFormed hp l

end Refusal

end LoopNest
