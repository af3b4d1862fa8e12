import LoopNest.Kernel.Slots
import LoopNest.Proofs.Lists
import LoopNest.Proofs.Tree.Points
import Mathlib.Data.List.Nodup

namespace LoopNest

open Slots (Scope)

section Relabel

variable (ρ : Nat → Nat)

def KernelForm.relabel (f : KernelForm) : KernelForm := { f with terms := f.terms.map fun t => (ρ t.1, t.2) }

def Place.relabel (place : Place) : Place :=
  { place with indices := place.indices.map fun i => (i.1.relabel ρ, i.2) }

def KernelExpr.relabel : KernelExpr → KernelExpr
  | const v => const v
  | slot f => slot (f.relabel ρ)
  | load n => load n
  | binary op l r => binary op l.relabel r.relabel
  | neg e => neg e.relabel
  | call f e => call f e.relabel

def Statement.relabel (st : Statement) : Statement where
  computation := st.computation
  iterators := st.iterators.map (KernelForm.relabel ρ)
  reads := st.reads.map (Place.relabel ρ)
  store := st.store.relabel ρ
  value := st.value.relabel ρ

def Range.relabel (r : Range) : Range :=
  { r with lower := r.lower.relabel ρ, upper := r.upper.relabel ρ, clamp := r.clamp.map (KernelForm.relabel ρ) }

def Numbering.Bindings.relabel (b : Numbering.Bindings) : Numbering.Bindings :=
  { b with values := b.values.map fun v => (v.1, v.2.relabel ρ) }

end Relabel

section Statements

variable {ρ : Nat → Nat} (hρ : Function.Injective ρ)

theorem lift_map {ε α β : Type} (f : α → β) (x : Checked α) :
    (liftM (f <$> x) : Outcome ε β) = f <$> (liftM x : Outcome ε α) := by
  cases x <;> rfl

section Sums

include hρ

theorem KernelForm.addTerm_relabel (ts : List (Nat × Int)) (slot : Nat) (c : Int) :
    addTerm (ts.map fun t => (ρ t.1, t.2)) (ρ slot) c =
      (List.map fun t => (ρ t.1, t.2)) <$> addTerm ts slot c := by
  induction ts with
  | nil => rfl
  | cons t ts ih =>
    rw [List.map_cons, addTerm, addTerm]
    by_cases h : t.1 = slot
    · rw [if_pos (congrArg ρ h), if_pos h]
      simp only [map_bind, map_pure, List.map_cons]
    · rw [if_neg fun h' => h (hρ h'), if_neg h]
      simp only [ih, bind_map_left, map_bind, map_pure, List.map_cons]

theorem KernelForm.plusMultipleTerms_relabel (scale : Int) (acc ts : List (Nat × Int)) :
    plusMultipleTerms scale (acc.map fun t => (ρ t.1, t.2)) (ts.map fun t => (ρ t.1, t.2)) =
      (List.map fun t => (ρ t.1, t.2)) <$> plusMultipleTerms scale acc ts := by
  induction ts generalizing acc with
  | nil => rfl
  | cons t ts ih =>
    rw [List.map_cons, plusMultipleTerms, plusMultipleTerms, map_bind]
    refine congrArg _ (funext fun c => ?_)
    rw [addTerm_relabel hρ, bind_map_left, map_bind]
    exact congrArg _ (funext fun acc => ih acc)

theorem KernelForm.plusMultiple_relabel (f g : KernelForm) (scale : Int) :
    (f.relabel ρ).plusMultiple (g.relabel ρ) scale = relabel ρ <$> f.plusMultiple g scale := by
  rw [plusMultiple, plusMultiple]
  simp only [relabel, plusMultipleTerms_relabel hρ, map_bind, bind_map_left, map_pure, List.filter_map]
  rfl

namespace Numbering.Bindings

variable (b : Bindings)

theorem sum_relabel (acc : KernelForm) (ts : List Term) :
    (b.relabel ρ).sum (acc.relabel ρ) ts = KernelForm.relabel ρ <$> b.sum acc ts := by
  induction ts generalizing acc with
  | nil => rfl
  | cons t ts ih =>
    rw [sum, sum, relabel, List.find?_map]
    cases hv : b.values.find? fun v => v.1 == t.atom with
    | none =>
      have hnone : b.values.find? ((fun v => v.1 == t.atom) ∘ fun v => (v.1, v.2.relabel ρ)) = none := hv
      rw [hnone]
      rfl
    | some v =>
      have hsome : b.values.find? ((fun v => v.1 == t.atom) ∘ fun v => (v.1, v.2.relabel ρ)) = some v := hv
      rw [hsome]
      simp only [Option.map_some, KernelForm.plusMultiple_relabel hρ, lift_map, bind_map_left, map_bind]
      exact congrArg _ (funext fun acc => ih acc)

theorem form_relabel (f : Affine) : (b.relabel ρ).form f = KernelForm.relabel ρ <$> b.form f :=
  b.sum_relabel hρ ⟨[], f.constant⟩ f.terms

theorem forms_relabel (fs : List Affine) :
    (b.relabel ρ).forms fs = List.map (KernelForm.relabel ρ) <$> b.forms fs := by
  induction fs with
  | nil => rfl
  | cons f fs ih =>
    rw [forms, forms, b.form_relabel hρ, ih]
    simp only [bind_map_left, map_bind, map_pure, List.map_cons]

theorem place_relabel (p : Program) (a : Access) :
    (b.relabel ρ).place p a = Place.relabel ρ <$> b.place p a := by
  rw [place, place, b.forms_relabel hρ]
  simp only [bind_map_left, map_bind, map_pure, Place.relabel, List.zip_map_left]
  rfl

theorem expr_relabel (p : Program) (e : Expr) (next : Nat) : (b.relabel ρ).expr p next e =
    (fun r => (r.1.relabel ρ, r.2.map (Place.relabel ρ))) <$> b.expr p next e := by
  induction e generalizing next with
  | const v => rfl
  | iter name =>
    rw [expr, expr, b.form_relabel hρ]
    simp only [bind_map_left, map_bind, map_pure]
    rfl
  | load a =>
    rw [expr, expr, b.place_relabel hρ]
    simp only [bind_map_left, map_bind, map_pure]
    rfl
  | binary op l r ihl ihr =>
    simp only [expr, ihl, ihr, bind_map_left, map_bind, map_pure, List.length_map, List.map_append]
    rfl
  | neg e ih =>
    simp only [expr, ih, bind_map_left, map_bind, map_pure]
    rfl
  | call f e ih =>
    simp only [expr, ih, bind_map_left, map_bind, map_pure]
    rfl

end Numbering.Bindings

theorem Numbering.statementOf_relabel (p : Program) (computation : Nat) (c : Computation)
    (iterators : List KernelForm) : statementOf p computation c (iterators.map (KernelForm.relabel ρ)) =
      Statement.relabel ρ <$> statementOf p computation c iterators := by
  have hbindings : (⟨c.name, c.iterators.zip (iterators.map (KernelForm.relabel ρ))⟩ : Bindings) =
      Bindings.relabel ρ ⟨c.name, c.iterators.zip iterators⟩ := by
    rw [Bindings.relabel, List.zip_map_right]
    rfl
  simp only [statementOf, hbindings, Bindings.expr_relabel hρ, Bindings.place_relabel hρ, bind_map_left, map_bind,
    map_pure]
  rfl

end Sums

end Statements

namespace Slots

def slotAt (bound : Nat) (slots : List Nat) (position : Nat) : Nat := slots.getD position (bound + position)

mutual

def slotted (bound : Nat) (slots : List Nat) : Kernel.Node → Kernel.Node
  | .leaf st => .leaf (st.relabel (slotAt bound slots))
  | .loop r body => .loop (r.relabel (slotAt bound slots)) (slottedAll bound (r.number :: slots) body)

def slottedAll (bound : Nat) (slots : List Nat) : List Kernel.Node → List Kernel.Node
  | [] => []
  | n :: ns => slotted bound slots n :: slottedAll bound slots ns

end

section Compile

theorem slotAt_injective {bound : Nat} {slots : List Nat} (hnodup : slots.Nodup) (hlt : ∀ s ∈ slots, s < bound) :
    Function.Injective (slotAt bound slots) := by
  intro i j h
  unfold slotAt at h
  rw [List.getD_eq_getElem?_getD, List.getD_eq_getElem?_getD] at h
  cases hi : slots[i]? with
  | none =>
    cases hj : slots[j]? with
    | none =>
      rw [hi, hj] at h
      exact Nat.add_left_cancel h
    | some t =>
      have ht := hlt t (List.mem_of_getElem? hj)
      rw [hi, hj] at h
      simp only [Option.getD_none, Option.getD_some] at h
      omega
  | some s =>
    have hs := hlt s (List.mem_of_getElem? hi)
    cases hj : slots[j]? with
    | none =>
      rw [hi, hj] at h
      simp only [Option.getD_none, Option.getD_some] at h
      omega
    | some t =>
      rw [hi, hj] at h
      obtain ⟨hilt, rfl⟩ := List.getElem?_eq_some_iff.1 hi
      obtain ⟨hjlt, rfl⟩ := List.getElem?_eq_some_iff.1 hj
      exact hnodup.getElem_inj_iff.1 h

variable {scope : Scope} (bound : Nat)

theorem lookup_eq (a : String) : scope.lookup a =
    (position? (· == a) (scope.map Prod.fst)).bind fun i => (scope.map Prod.snd)[i]? := by
  induction scope with
  | nil => rfl
  | cons x scope ih =>
    obtain ⟨d, slot⟩ := x
    simp only [List.map_cons, position?, List.lookup_cons]
    by_cases hd : d = a
    · subst hd
      simp
    · have hne : (a == d) = false := beq_eq_false_iff_ne.2 (Ne.symm hd)
      have hne' : (d == a) = false := beq_eq_false_iff_ne.2 hd
      simp only [hne, hne', Bool.false_eq_true, if_false, ih, Option.bind_map]
      rfl

theorem lookup_of_position {a : String} {i : Nat} (h : position? (· == a) (scope.map Prod.fst) = some i) :
    scope.lookup a = some (slotAt bound (scope.map Prod.snd) i) := by
  obtain ⟨b, hb, -⟩ := exists_of_position? h
  have hlt : i < (scope.map Prod.snd).length := by
    simpa using (List.getElem?_eq_some_iff.1 hb).1
  rw [lookup_eq, h, Option.bind_some, slotAt, List.getD_eq_getElem?_getD, List.getElem?_eq_getElem hlt,
    Option.getD_some]

theorem form_eq (f : Affine) : form scope f =
    KernelForm.relabel (slotAt bound (scope.map Prod.snd)) <$> Numbering.form (scope.map Prod.fst) f := by
  have hterms (ts : List Term) : terms scope ts =
      (List.map fun t => (slotAt bound (scope.map Prod.snd) t.1, t.2)) <$>
        Numbering.slots (scope.map Prod.fst) ts := by
    induction ts with
    | nil => rfl
    | cons t ts ih =>
      rw [terms, Numbering.slots]
      cases hi : position? (· == t.atom) (scope.map Prod.fst) with
      | none =>
        rw [lookup_eq, hi]
        rfl
      | some i =>
        rw [lookup_of_position bound hi]
        simp only [ih, bind_map_left, map_bind, map_pure, List.map_cons]
  rw [form, Numbering.form, hterms]
  simp only [bind_map_left, map_bind, map_pure]
  rfl

theorem forms_eq (fs : List Affine) : forms scope fs =
    List.map (KernelForm.relabel (slotAt bound (scope.map Prod.snd))) <$>
      Numbering.forms (scope.map Prod.fst) fs := by
  induction fs with
  | nil => rfl
  | cons f fs ih =>
    rw [forms, Numbering.forms, form_eq bound, ih]
    simp only [bind_map_left, map_bind, map_pure, List.map_cons]

theorem clampForm_eq (f : Option Affine) : clampForm scope f =
    Option.map (KernelForm.relabel (slotAt bound (scope.map Prod.snd))) <$>
      Numbering.clampForm (scope.map Prod.fst) f := by
  cases f with
  | none => rfl
  | some f =>
    rw [clampForm, Numbering.clampForm, form_eq bound]
    simp only [bind_map_left, map_bind, map_pure, Option.map_some]

theorem statement_eq {p : Program} (hlt : ∀ s ∈ scope.map Prod.snd, s < bound)
    (hnodup : (scope.map Prod.snd).Nodup) (l : Leaf) :
    statement p scope l =
      Statement.relabel (slotAt bound (scope.map Prod.snd)) <$> Numbering.statement p (scope.map Prod.fst) l := by
  rw [statement, Numbering.statement]
  cases p.computations[l.computation]? with
  | none => rfl
  | some c =>
    simp only [forms_eq bound, Numbering.statementOf_relabel (slotAt_injective hnodup hlt), bind_map_left,
      map_bind]

end Compile

section Trees

variable {p : Program}

mutual

theorem next_of_node {scope : Numbering.Scope} {next next' : Nat} (n : Node) {k : LoopNest.Kernel.Node}
    (h : Numbering.node p scope next n = .ok (k, next')) : next' = next + n.dims.length := by
  cases n with
  | leaf l =>
    obtain ⟨st, -, rfl, rfl⟩ := Numbering.node_leaf_eq_ok h
    rfl
  | loop hd body =>
    obtain ⟨r, ks, -, hb, rfl⟩ := Numbering.node_loop_eq_ok h
    rw [next_of_nodes body hb, Node.dims, List.length_cons]
    omega

theorem next_of_nodes {scope : Numbering.Scope} {next next' : Nat} (ns : List Node)
    {ks : List LoopNest.Kernel.Node} (h : Numbering.nodes p scope next ns = .ok (ks, next')) :
    next' = next + (Node.dimsAll ns).length := by
  cases ns with
  | nil =>
    cases h
    rfl
  | cons n ns =>
    obtain ⟨k, mid, ks, hn, hns, rfl⟩ := Numbering.nodes_cons_eq_ok h
    rw [next_of_nodes ns hns, next_of_node n hn, Node.dimsAll, List.length_append]
    omega

end

mutual

theorem node_eq (bound : Nat) (n : Node) {scope : Scope} {names : List String} (hnodup : (scope.map Prod.snd).Nodup)
    (hlt : ∀ s ∈ scope.map Prod.snd, s < names.length) (hbound : names.length + n.dims.length ≤ bound) :
    node p scope names n = (fun r => (slotted bound (scope.map Prod.snd) r.1, names ++ n.dims)) <$>
      Numbering.node p (scope.map Prod.fst) names.length n := by
  cases n with
  | leaf l =>
    have hslots : ∀ s ∈ scope.map Prod.snd, s < bound := fun s hs => by
      have := hlt s hs
      omega
    rw [node, Numbering.node, statement_eq bound hslots hnodup]
    simp only [bind_map_left, map_bind, map_pure, slotted, Node.dims, List.append_nil]
  | loop h body =>
    rw [Node.dims, List.length_cons] at hbound
    have hslot : names.length ∉ scope.map Prod.snd := fun hmem => Nat.lt_irrefl _ (hlt _ hmem)
    have hinside : (((h.dim, names.length) :: scope).map Prod.snd).Nodup := List.nodup_cons.2 ⟨hslot, hnodup⟩
    have hbelow : ∀ s ∈ ((h.dim, names.length) :: scope).map Prod.snd, s < (names ++ [h.dim]).length := by
      rw [List.length_append, List.length_singleton]
      exact List.forall_mem_cons.2 ⟨Nat.lt_succ_self _, fun s hs => Nat.lt_succ_of_lt (hlt s hs)⟩
    have hbody := nodes_eq bound body hinside hbelow (by
      rw [List.length_append, List.length_singleton]
      omega)
    rw [List.length_append, List.length_singleton] at hbody
    rw [node, Numbering.node]
    simp only [form_eq bound, clampForm_eq bound, hbody, bind_map_left, map_bind, map_pure,
      slotted, Node.dims, List.append_assoc, List.singleton_append, List.map_cons]
    rfl

theorem nodes_eq (bound : Nat) (ns : List Node) {scope : Scope} {names : List String}
    (hnodup : (scope.map Prod.snd).Nodup) (hlt : ∀ s ∈ scope.map Prod.snd, s < names.length)
    (hbound : names.length + (Node.dimsAll ns).length ≤ bound) :
    nodes p scope names ns = (fun r => (slottedAll bound (scope.map Prod.snd) r.1, names ++ Node.dimsAll ns)) <$>
      Numbering.nodes p (scope.map Prod.fst) names.length ns := by
  cases ns with
  | nil =>
    rw [Node.dimsAll, List.append_nil]
    rfl
  | cons n ns =>
    rw [Node.dimsAll, List.length_append] at hbound
    rw [nodes, Numbering.nodes, node_eq bound n hnodup hlt (by omega)]
    cases hn : Numbering.node p (scope.map Prod.fst) names.length n with
    | error e => rfl
    | ok r =>
      obtain ⟨k, next⟩ := r
      have hnext : next = (names ++ n.dims).length := by
        rw [next_of_node n hn, List.length_append]
      have hbelow : ∀ s ∈ scope.map Prod.snd, s < (names ++ n.dims).length := fun s hs => by
        rw [List.length_append]
        exact Nat.lt_add_right _ (hlt s hs)
      have hrest := nodes_eq bound ns hnodup hbelow (by
        rw [List.length_append]
        omega)
      simp only [Except.map_ok, ok_bind, hnext, hrest, bind_map_left, map_bind, map_pure, slottedAll, Node.dimsAll,
        List.append_assoc]

end

end Trees

theorem ofTree_eq (p : Program) (roots : List Node) : Kernel.ofTree p roots =
    (fun k => ⟨slottedAll (Node.dimsAll roots).length [] k.body, Node.dimsAll roots⟩) <$>
      LoopNest.Kernel.ofTree p roots := by
  have hnodup : (([] : Scope).map Prod.snd).Nodup := List.nodup_nil
  have hlt : ∀ s ∈ ([] : Scope).map Prod.snd, s < ([] : List String).length := fun _ h => absurd h List.not_mem_nil
  have hnodes := nodes_eq (p := p) _ roots hnodup hlt (Nat.le_of_eq (Nat.zero_add _))
  rw [Kernel.ofTree, LoopNest.Kernel.ofTree, hnodes]
  simp only [bind_map_left, map_bind, map_pure, List.nil_append, List.map_nil, List.length_nil]

end Slots

end LoopNest
