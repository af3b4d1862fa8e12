import LoopNest.Program.Basic
import LoopNest.Proofs.Affine.Scope
import LoopNest.Proofs.Lists
import LoopNest.Tree.Basic
import Mathlib.Data.List.Nodup
import Mathlib.Logic.Function.Basic

namespace LoopNest

abbrev Valuation : Type := String → Int

def valuesFrom (v : Int) (count : Nat) : List Int := (List.range count).map fun (k : Nat) => v + (k : Int)

theorem valuesFrom_zero (v : Int) : valuesFrom v 0 = [] := rfl

theorem valuesFrom_succ (v : Int) (count : Nat) :
    valuesFrom v (count + 1) = v :: valuesFrom (v + 1) count := by
  simp only [valuesFrom, List.range_succ_eq_map, List.map_cons, List.map_map]
  refine congrArg₂ _ (by simp) (List.map_congr_left fun k _ => ?_)
  simp only [Function.comp_apply]
  omega

theorem valuesFrom_add (v : Int) (k l : Nat) :
    valuesFrom v (k + l) = valuesFrom v k ++ valuesFrom (v + k) l := by
  induction k generalizing v with
  | zero => simp [valuesFrom_zero]
  | succ k ih =>
    have hassoc : v + 1 + (k : Int) = v + ((k + 1 : Nat) : Int) := by omega
    have hcount : k + 1 + l = (k + l) + 1 := by omega
    rw [hcount, valuesFrom_succ, ih, valuesFrom_succ, hassoc, List.cons_append]

theorem valuesFrom_map_add (v w : Int) (count : Nat) :
    (valuesFrom w count).map (v + ·) = valuesFrom (v + w) count := by
  simp only [valuesFrom, List.map_map]
  exact List.map_congr_left fun k _ => (Int.add_assoc v w k).symm

theorem mem_valuesFrom {v w : Int} {count : Nat} : w ∈ valuesFrom v count ↔ v ≤ w ∧ w < v + count := by
  simp only [valuesFrom, List.mem_map, List.mem_range]
  constructor
  · rintro ⟨k, hk, rfl⟩
    omega
  · rintro ⟨hle, hlt⟩
    exact ⟨(w - v).toNat, by omega, by omega⟩

namespace Header

def top (h : Header) (env : Valuation) : Int :=
  match h.clamp with
  | none => h.upper.value env
  | some c => min (h.upper.value env) (c.value env)

def values (h : Header) (env : Valuation) : List Int :=
  valuesFrom (h.lower.value env) (h.top env - h.lower.value env).toNat

structure Bound (m : String → Affine) (h h' : Header) : Prop where
  lower : h.lower.bindVars m = .ok h'.lower
  upper : h.upper.bindVars m = .ok h'.upper
  clamp : (h.clamp = none ∧ h'.clamp = none) ∨
    ∃ c c', h.clamp = some c ∧ c.bindVars m = .ok c' ∧ h'.clamp = some c'

structure Tidy (names : List String) (h : Header) : Prop where
  inScope : ∀ f ∈ h.limits, f.Over names
  canonical : ∀ f ∈ h.limits, f.IsCanonical

variable {m : String → Affine} {h h' : Header}

theorem mem_limits {f : Affine} :
    f ∈ h.limits ↔ f = h.lower ∨ f = h.upper ∨ h.clamp = some f := by
  simp [limits]

theorem lower_mem_limits : h.lower ∈ h.limits := mem_limits.2 (Or.inl rfl)

theorem upper_mem_limits : h.upper ∈ h.limits := mem_limits.2 (Or.inr (Or.inl rfl))

theorem clamp_mem_limits {c : Affine} (hc : h.clamp = some c) : c ∈ h.limits := mem_limits.2 (Or.inr (Or.inr hc))

theorem values_congr {env env' : Valuation} (hl : h.lower.value env = h'.lower.value env')
    (ht : h.top env = h'.top env') : h.values env = h'.values env' := by
  rw [values, values, hl, ht]

theorem values_congr_limits {env env' : Valuation} (hlimit : ∀ f ∈ h.limits, f.value env = f.value env') :
    h.values env = h.values env' := by
  refine values_congr (hlimit h.lower lower_mem_limits) ?_
  have hupper := hlimit h.upper upper_mem_limits
  cases hc : h.clamp with
  | none => simp only [top, hc, hupper]
  | some c => simp only [top, hc, hupper, hlimit c (clamp_mem_limits hc)]

theorem Bound.values (hb : h.Bound m h') (env : Valuation) :
    h'.values env = h.values fun a => (m a).value env := by
  refine values_congr (Affine.value_bindVars env hb.lower) ?_
  rcases hb.clamp with ⟨hc, hc'⟩ | ⟨c, c', hc, hcc, hc'⟩
  · simp only [top, hc, hc', Affine.value_bindVars env hb.upper]
  · simp only [top, hc, hc', Affine.value_bindVars env hb.upper, Affine.value_bindVars env hcc]

theorem forall_limits {P : Affine → Prop} (hlower : P h.lower) (hupper : P h.upper)
    (hclamp : ∀ c, h.clamp = some c → P c) : ∀ f ∈ h.limits, P f := by
  intro f hf
  rcases mem_limits.1 hf with rfl | rfl | hf
  · exact hlower
  · exact hupper
  · exact hclamp f hf

theorem tidy_of_limits {names : List String} (hlower : h.lower.Over names ∧ h.lower.IsCanonical)
    (hupper : h.upper.Over names ∧ h.upper.IsCanonical)
    (hclamp : ∀ c, h.clamp = some c → c.Over names ∧ c.IsCanonical) : h.Tidy names :=
  have hlimits := forall_limits hlower hupper hclamp
  ⟨fun f hf => (hlimits f hf).1, fun f hf => (hlimits f hf).2⟩

theorem Bound.tidy (hb : h.Bound m h') {names names' : List String} (ht : h.Tidy names)
    (hm : ∀ a ∈ names, (m a).Over names') : h'.Tidy names' := by
  have hform {f g : Affine} (hf : f ∈ h.limits) (hg : f.bindVars m = .ok g) : g.Over names' ∧ g.IsCanonical :=
    ⟨Affine.over_bindVars (fun a ha => hm a (ht.inScope f hf a ha)) hg, Affine.isCanonical_bindVars hg⟩
  apply tidy_of_limits (hform lower_mem_limits hb.lower) (hform upper_mem_limits hb.upper)
  intro f hf
  rcases hb.clamp with ⟨-, hc'⟩ | ⟨c, c', hc, hcc, hc'⟩
  · cases hc'.symm.trans hf
  · cases hc'.symm.trans hf
    exact hform (clamp_mem_limits hc) hcc

theorem Tidy.mono {names more : List String} (ht : h.Tidy names) (hs : names ⊆ more) : h.Tidy more where
  inScope f hf := (ht.inScope f hf).mono hs
  canonical := ht.canonical

theorem Tidy.values_congr {names : List String} (ht : h.Tidy names) {env env' : Valuation}
    (he : ∀ a ∈ names, env a = env' a) : h.values env = h.values env' :=
  values_congr_limits fun f hf => Affine.value_congr (ht.inScope f hf) he

end Header

structure Leaf.Scoped (p : Program) (names : List String) (l : Leaf) : Prop where
  computation : ∃ c, p.computations[l.computation]? = some c ∧ l.bindings.length = c.iterators.length
  inScope : ∀ f ∈ l.bindings, f.Over names

structure Leaf.Tidy (p : Program) (names : List String) (l : Leaf) : Prop where
  computation : ∃ c, p.computations[l.computation]? = some c ∧ l.bindings.length = c.iterators.length
  inScope : ∀ f ∈ l.bindings, f.Over names
  canonical : ∀ f ∈ l.bindings, f.IsCanonical

namespace Node

mutual

def points (env : Valuation) : Node → List (Nat × List Int)
  | leaf l => [(l.computation, l.bindings.map fun f => f.value env)]
  | loop h body => (h.values env).flatMap fun v => pointsAll (Function.update env h.dim v) body

def pointsAll (env : Valuation) : List Node → List (Nat × List Int)
  | [] => []
  | n :: ns => n.points env ++ pointsAll env ns

end

mutual

def dims : Node → List String
  | leaf _ => []
  | loop h body => h.dim :: dimsAll body

def dimsAll : List Node → List String
  | [] => []
  | n :: ns => n.dims ++ dimsAll ns

end

mutual

def Tidy (p : Program) (names : List String) : Node → Prop
  | leaf l => l.Tidy p names
  | loop h body => h.Tidy names ∧ TidyAll p (h.dim :: names) body

def TidyAll (p : Program) (names : List String) : List Node → Prop
  | [] => True
  | n :: ns => n.Tidy p names ∧ TidyAll p names ns

end

mutual

def Scoped (p : Program) (names : List String) : Node → Prop
  | leaf l => l.Scoped p names
  | loop h body => (∀ f ∈ h.limits, f.Over names) ∧ ScopedAll p (h.dim :: names) body

def ScopedAll (p : Program) (names : List String) : List Node → Prop
  | [] => True
  | n :: ns => n.Scoped p names ∧ ScopedAll p names ns

end

mutual

theorem Tidy.scoped {p : Program} (n : Node) {names : List String} (h : n.Tidy p names) : n.Scoped p names := by
  cases n with
  | leaf l => exact ⟨h.computation, h.inScope⟩
  | loop hd body => exact ⟨h.1.inScope, TidyAll.scoped body h.2⟩

theorem TidyAll.scoped {p : Program} (ns : List Node) {names : List String} (h : TidyAll p names ns) :
    ScopedAll p names ns := by
  cases ns with
  | nil => trivial
  | cons n ns => exact ⟨Tidy.scoped n h.1, TidyAll.scoped ns h.2⟩

end

theorem tidyAll_iff {p : Program} {names : List String} {ns : List Node} :
    TidyAll p names ns ↔ ∀ n ∈ ns, n.Tidy p names := by
  induction ns with
  | nil => simp [TidyAll]
  | cons n ns ih => simp [TidyAll, ih]

theorem pointsAll_eq_flatMap (env : Valuation) (ns : List Node) :
    pointsAll env ns = ns.flatMap (points env) := by
  induction ns with
  | nil => rfl
  | cons n ns ih => rw [pointsAll, ih, List.flatMap_cons]

theorem dimsAll_eq_flatMap (ns : List Node) : dimsAll ns = ns.flatMap dims := by
  induction ns with
  | nil => rfl
  | cons n ns ih => rw [dimsAll, ih, List.flatMap_cons]

theorem leavesAll_eq_flatMap (ns : List Node) : leavesAll ns = ns.flatMap leaves := by
  induction ns with
  | nil => rfl
  | cons n ns ih => rw [leavesAll, ih, List.flatMap_cons]

mutual

theorem loops_map_dim (n : Node) (depth : Nat) : (n.loops depth).map (fun l => l.2.1.dim) = n.dims := by
  cases n with
  | leaf l => rfl
  | loop h body => rw [loops, List.map_cons, loopsAll_map_dim body, dims]

theorem loopsAll_map_dim (ns : List Node) (depth : Nat) :
    (loopsAll depth ns).map (fun l => l.2.1.dim) = dimsAll ns := by
  cases ns with
  | nil => rfl
  | cons n ns => rw [loopsAll, List.map_append, loops_map_dim n, loopsAll_map_dim ns, dimsAll]

end

theorem loopDims_eq_dimsAll (ns : List Node) : loopDims ns = dimsAll ns := loopsAll_map_dim ns 0

section Scope

variable {p : Program}

mutual

theorem Tidy.mono (n : Node) {names more : List String} (h : n.Tidy p names) (hs : names ⊆ more) :
    n.Tidy p more := by
  cases n with
  | leaf l => exact ⟨h.computation, fun f hf => (h.inScope f hf).mono hs, h.canonical⟩
  | loop hd body => exact ⟨h.1.mono hs, TidyAll.mono body h.2 (List.cons_subset_cons _ hs)⟩

theorem TidyAll.mono (ns : List Node) {names more : List String} (h : TidyAll p names ns)
    (hs : names ⊆ more) : TidyAll p more ns := by
  cases ns with
  | nil => trivial
  | cons n ns => exact ⟨Tidy.mono n h.1 hs, TidyAll.mono ns h.2 hs⟩

end

mutual

theorem leaf_tidy (n : Node) {names : List String} (h : n.Tidy p names) {l : Leaf} (hl : l ∈ n.leaves) :
    ∃ around, l.Tidy p around := by
  cases n with
  | leaf l' => exact ⟨names, List.mem_singleton.1 hl ▸ h⟩
  | loop hd body => exact leafAll_tidy body h.2 hl

theorem leafAll_tidy (ns : List Node) {names : List String} (h : TidyAll p names ns) {l : Leaf}
    (hl : l ∈ leavesAll ns) : ∃ around, l.Tidy p around := by
  cases ns with
  | nil => cases hl
  | cons n ns =>
    rcases List.mem_append.1 hl with hl | hl
    · exact leaf_tidy n h.1 hl
    · exact leafAll_tidy ns h.2 hl

end

theorem update_congr {names : List String} {env env' : Valuation} (he : ∀ a ∈ names, env a = env' a)
    (d : String) (v : Int) :
    ∀ a ∈ d :: names, Function.update env d v a = Function.update env' d v a := by
  intro a ha
  by_cases had : a = d
  · rw [had, Function.update_self, Function.update_self]
  · rw [Function.update_of_ne had, Function.update_of_ne had]
    exact he a ((List.mem_cons.1 ha).resolve_left had)

mutual

theorem points_congr (n : Node) {names : List String} (h : n.Tidy p names) {env env' : Valuation}
    (he : ∀ a ∈ names, env a = env' a) : n.points env = n.points env' := by
  cases n with
  | leaf l =>
    simp only [points]
    rw [List.map_congr_left fun f hf => Affine.value_congr (h.inScope f hf) he]
  | loop hd body =>
    rw [points, points, h.1.values_congr he]
    exact List.flatMap_congr fun v _ => pointsAll_congr body h.2 (update_congr he hd.dim v)

theorem pointsAll_congr (ns : List Node) {names : List String} (h : TidyAll p names ns)
    {env env' : Valuation} (he : ∀ a ∈ names, env a = env' a) : pointsAll env ns = pointsAll env' ns := by
  cases ns with
  | nil => rfl
  | cons n ns => rw [pointsAll, pointsAll, points_congr n h.1 he, pointsAll_congr ns h.2 he]

end

end Scope

section Substitution

variable {m : String → Affine}

theorem substitute_leaf_eq_ok {l : Leaf} {n : Node} :
    (leaf l).substitute m = .ok n ↔
      ∃ bindings, substituteForms m l.bindings = .ok bindings ∧ n = leaf { l with bindings } := by
  simp only [substitute, bind_eq_ok, pure_eq_ok]
  exact exists_congr fun bindings => and_congr_right fun _ => eq_comm

theorem substitute_loop_eq_ok {h : Header} {body : List Node} {n : Node} :
    (loop h body).substitute m = .ok n → ∃ h' body', h.Bound m h' ∧ h'.dim = h.dim ∧
      h'.tags = h.tags ∧ substituteAll m body = .ok body' ∧ n = loop h' body' := by
  intro hs
  rw [substitute] at hs
  obtain ⟨lower, hl, hs⟩ := bind_eq_ok.1 hs
  obtain ⟨upper, hu, hs⟩ := bind_eq_ok.1 hs
  cases hclamp : h.clamp with
  | none =>
    simp only [hclamp, ok_bind] at hs
    obtain ⟨body', hb, hs⟩ := bind_eq_ok.1 hs
    cases hs
    exact ⟨{ h with lower, upper, clamp := none }, body', ⟨hl, hu, Or.inl ⟨hclamp, rfl⟩⟩, rfl, rfl, hb, rfl⟩
  | some c =>
    simp only [hclamp] at hs
    obtain ⟨clamp, body', hc, hb, rfl⟩ := bind₂_eq_ok.1 hs
    obtain ⟨c', hcc, rfl⟩ := map_eq_ok.1 hc
    exact ⟨{ h with lower, upper, clamp := some c' }, body',
      ⟨hl, hu, Or.inr ⟨c, c', hclamp, hcc, rfl⟩⟩, rfl, rfl, hb, rfl⟩

theorem substituteAll_cons_eq_ok {n : Node} {ns ns' : List Node} (h : substituteAll m (n :: ns) = .ok ns') :
    ∃ n' rest, n.substitute m = .ok n' ∧ substituteAll m ns = .ok rest ∧ ns' = n' :: rest := by
  rw [substituteAll] at h
  exact bind₂_eq_ok.1 h

theorem traverses_substituteForms (m : String → Affine) :
    Traverses (fun f : Affine => f.bindVars m) (substituteForms m) where
  nil := by rw [substituteForms]
  cons f fs := by rw [substituteForms]

mutual

theorem dims_substitute (n : Node) {n' : Node} (h : n.substitute m = .ok n') : n'.dims = n.dims := by
  cases n with
  | leaf l =>
    obtain ⟨bindings, -, rfl⟩ := substitute_leaf_eq_ok.1 h
    rfl
  | loop hd body =>
    obtain ⟨h', body', -, hdim, -, hb, rfl⟩ := substitute_loop_eq_ok h
    rw [dims, dims, hdim, dimsAll_substituteAll body hb]

theorem dimsAll_substituteAll (ns : List Node) {ns' : List Node} (h : substituteAll m ns = .ok ns') :
    dimsAll ns' = dimsAll ns := by
  cases ns with
  | nil => cases h; rfl
  | cons n ns =>
    obtain ⟨n', rest, hn, hr, rfl⟩ := substituteAll_cons_eq_ok h
    rw [dimsAll, dimsAll, dims_substitute n hn, dimsAll_substituteAll ns hr]

end

mutual

theorem leaves_substitute (n : Node) {n' : Node} (h : n.substitute m = .ok n') :
    n'.leaves.map Leaf.computation = n.leaves.map Leaf.computation := by
  cases n with
  | leaf l =>
    obtain ⟨bindings, -, rfl⟩ := substitute_leaf_eq_ok.1 h
    rfl
  | loop hd body =>
    obtain ⟨h', body', -, -, -, hb, rfl⟩ := substitute_loop_eq_ok h
    exact leavesAll_substituteAll body hb

theorem leavesAll_substituteAll (ns : List Node) {ns' : List Node} (h : substituteAll m ns = .ok ns') :
    (leavesAll ns').map Leaf.computation = (leavesAll ns).map Leaf.computation := by
  cases ns with
  | nil => cases h; rfl
  | cons n ns =>
    obtain ⟨n', rest, hn, hr, rfl⟩ := substituteAll_cons_eq_ok h
    rw [leavesAll, leavesAll, List.map_append, List.map_append, leaves_substitute n hn,
      leavesAll_substituteAll ns hr]

end

def Spares (m : String → Affine) (w : String) : Prop :=
  m w = .var w ∧ ∀ a, a ≠ w → w ∉ (m a).atoms

theorem Spares.update {w : String} (h : Spares m w) (env : Valuation) (v : Int) :
    (fun a => (m a).value (Function.update env w v)) =
      Function.update (fun a => (m a).value env) w v := by
  funext a
  by_cases haw : a = w
  · rw [haw, h.1, Affine.value_var, Function.update_self, Function.update_self]
  · rw [Function.update_of_ne haw]
    refine Affine.value_congr_atoms fun b hb => ?_
    refine Function.update_of_ne ?_ _ _
    rintro rfl
    exact h.2 a haw hb

mutual

theorem points_substitute (n : Node) {n' : Node} (h : n.substitute m = .ok n')
    (hm : ∀ w ∈ n.dims, Spares m w) (env : Valuation) :
    n'.points env = n.points fun a => (m a).value env := by
  cases n with
  | leaf l =>
    obtain ⟨bindings, hb, rfl⟩ := substitute_leaf_eq_ok.1 h
    simp only [points]
    rw [(traverses_substituteForms m).map_eq (fun f g hfg => Affine.value_bindVars env hfg) hb]
  | loop hd body =>
    obtain ⟨h', body', hbound, hdim, -, hb, rfl⟩ := substitute_loop_eq_ok h
    rw [points, points, hbound.values, hdim]
    refine List.flatMap_congr fun v _ => ?_
    rw [pointsAll_substituteAll body hb fun w hw => hm w (List.mem_cons_of_mem _ hw),
      (hm hd.dim List.mem_cons_self).update]

theorem pointsAll_substituteAll (ns : List Node) {ns' : List Node} (h : substituteAll m ns = .ok ns')
    (hm : ∀ w ∈ dimsAll ns, Spares m w) (env : Valuation) :
    pointsAll env ns' = pointsAll (fun a => (m a).value env) ns := by
  cases ns with
  | nil => cases h; rfl
  | cons n ns =>
    obtain ⟨n', rest, hn, hr, rfl⟩ := substituteAll_cons_eq_ok h
    rw [pointsAll, pointsAll, points_substitute n hn fun w hw => hm w (List.mem_append_left _ hw),
      pointsAll_substituteAll ns hr fun w hw => hm w (List.mem_append_right _ hw)]

end

variable {p : Program}

theorem over_of_spares {w : String} (hw : Spares m w) {names names' : List String}
    (hm : ∀ a ∈ names, (m a).Over names') : ∀ a ∈ w :: names, (m a).Over (w :: names') := by
  intro a ha
  rcases List.mem_cons.1 ha with rfl | ha
  · rw [hw.1]
    exact Affine.over_var List.mem_cons_self
  · exact (hm a ha).mono fun _ hb => List.mem_cons_of_mem w hb

mutual

theorem tidy_substitute (n : Node) {n' : Node} (h : n.substitute m = .ok n') {names names' : List String}
    (ht : n.Tidy p names) (hm : ∀ a ∈ names, (m a).Over names') (hw : ∀ w ∈ n.dims, Spares m w) :
    n'.Tidy p names' := by
  cases n with
  | leaf l =>
    obtain ⟨bindings, hb, rfl⟩ := substitute_leaf_eq_ok.1 h
    obtain ⟨c, hc, hlen⟩ := ht.computation
    have hlength := (traverses_substituteForms m).length_eq hb
    refine ⟨⟨c, hc, by simpa [hlen] using hlength⟩, fun g hg => ?_, fun g hg => ?_⟩
    · obtain ⟨f, hf, hfg⟩ := (traverses_substituteForms m).exists_of_mem hb hg
      exact Affine.over_bindVars (fun a ha => hm a (ht.inScope f hf a ha)) hfg
    · obtain ⟨f, -, hfg⟩ := (traverses_substituteForms m).exists_of_mem hb hg
      exact Affine.isCanonical_bindVars hfg
  | loop hd body =>
    obtain ⟨h', body', hbound, hdim, -, hb, rfl⟩ := substitute_loop_eq_ok h
    refine ⟨hbound.tidy ht.1 hm, ?_⟩
    rw [hdim]
    exact tidyAll_substituteAll body hb ht.2 (over_of_spares (hw hd.dim List.mem_cons_self) hm)
      fun w h => hw w (List.mem_cons_of_mem _ h)

theorem tidyAll_substituteAll (ns : List Node) {ns' : List Node} (h : substituteAll m ns = .ok ns')
    {names names' : List String} (ht : TidyAll p names ns) (hm : ∀ a ∈ names, (m a).Over names')
    (hw : ∀ w ∈ dimsAll ns, Spares m w) : TidyAll p names' ns' := by
  cases ns with
  | nil => cases h; trivial
  | cons n ns =>
    obtain ⟨n', rest, hn, hr, rfl⟩ := substituteAll_cons_eq_ok h
    exact ⟨tidy_substitute n hn ht.1 hm fun w h => hw w (List.mem_append_left _ h),
      tidyAll_substituteAll ns hr ht.2 hm fun w h => hw w (List.mem_append_right _ h)⟩

end

end Substitution

end Node

end LoopNest
