import LoopNest.Proofs.Kernel.NamedWalk
import LoopNest.Proofs.Kernel.Plain

namespace LoopNest

open Kernel

/-- As long as the iterators before it are within their bounds, the bounds of a dimension are of small
magnitude. -/
def Computation.BoundsFit (c : Computation) : Prop :=
  ∀ n d, c.domain[n]? = some d → ∀ env : Valuation, (∀ e ∈ c.domain.take n, e.Holds env) →
    d.lower.magnitude env < 9223372036854775808 ∧ d.upper.magnitude env < 9223372036854775808

def Program.BoundsFit (p : Program) : Prop := ∀ c ∈ p.computations, c.BoundsFit

theorem Computation.boundsFit_of_pair {c : Computation} {d e : Dimension} (hdomain : c.domain = [d, e])
    (hd : ∀ env, d.lower.magnitude env < 9223372036854775808 ∧ d.upper.magnitude env < 9223372036854775808)
    (he : ∀ env, d.Holds env →
      e.lower.magnitude env < 9223372036854775808 ∧ e.upper.magnitude env < 9223372036854775808) : c.BoundsFit := by
  intro n x hx env hbefore
  rw [hdomain] at hx hbefore
  obtain _ | _ | n := n
  · cases hx
    exact hd env
  · cases hx
    exact he env (hbefore d List.mem_cons_self)
  · cases hx

section Stack

variable {c : Computation} {hs done rest : List Header} (hfit : c.BoundsFit) (hfollows : Follows hs c.domain)
include hfit hfollows

theorem magnitude_limits {x : Header} (hsplit : hs = done ++ x :: rest) {env : Valuation}
    (hdone : ∀ y ∈ done, env y.dim ∈ y.values env) : ∀ f ∈ x.limits, f.magnitude env < 9223372036854775808 := by
  subst hsplit
  obtain ⟨ρ, hρ⟩ := hfollows.renames
  rw [List.map_append, List.map_cons] at hρ
  have hbefore := List.forall₂_take_append _ _ _ hρ
  obtain ⟨d, after, hd, -, hdrop⟩ := List.forall₂_cons_right_iff.1 (List.forall₂_drop_append _ _ _ hρ)
  have hget : c.domain[(done.map Header.dimension).length]? = some d := by
    rw [← List.head?_drop, hdrop, List.head?_cons]
  have hholds := (Follows.values_iff hbefore (fun y hy => hfollows.clamp y (List.mem_append_left _ hy)) env).1 hdone
  obtain ⟨hlower, hupper⟩ := hfit _ d hget _ hholds
  have hclamp := hfollows.clamp x (List.mem_append_right _ List.mem_cons_self)
  intro f hf
  have hcases : f = x.lower ∨ f = x.upper := by simpa [Header.limits, hclamp] using hf
  rcases hcases with rfl | rfl
  · exact Nat.lt_of_le_of_lt (Nat.le_of_eq (hd.lower.magnitude env)) hlower
  · exact Nat.lt_of_le_of_lt (Nat.le_of_eq (hd.upper.magnitude env)) hupper

theorem magnitude_iterator {env : Valuation} (hin : ∀ y ∈ hs, env y.dim ∈ y.values env) {x : Header} (hx : x ∈ hs) :
    (Affine.var x.dim).magnitude env < 9223372036854775808 := by
  obtain ⟨pre, post, hsplit⟩ := List.append_of_mem hx
  have hlimits := magnitude_limits hfit hfollows hsplit fun y hy => hin y (hsplit ▸ List.mem_append_left _ hy)
  have hlower := hlimits _ Header.lower_mem_limits
  have hupper := hlimits _ Header.upper_mem_limits
  have hrange := Header.mem_values.1 (hin x hx)
  rw [Header.top, hfollows.clamp x hx] at hrange
  have hlowerValue := x.lower.natAbs_value_le env
  have hupperValue := x.upper.natAbs_value_le env
  rw [Affine.magnitude_var]
  simp only at hrange
  omega

theorem small_of_boundsFit (hsplit : hs = done ++ rest) (htidy : Node.HeadersTidy [] hs)
    (hdims : (hs.map Header.dim).Nodup) {env : Valuation} (hdone : ∀ y ∈ done, env y.dim ∈ y.values env) :
    Small (hs.map fun h => .var h.dim) env rest := by
  induction rest generalizing done env with
  | nil =>
    rw [List.append_nil] at hsplit
    subst hsplit
    intro f hf
    obtain ⟨x, hx, rfl⟩ := List.mem_map.1 hf
    exact magnitude_iterator hfit hfollows hdone hx
  | cons x rest ih =>
    obtain ⟨hdoneTidy, hx, -⟩ := Node.headersTidy_append.1 (hsplit ▸ htidy)
    have hnew : x.dim ∉ done.map Header.dim := by
      rw [hsplit, List.map_append, List.nodup_append] at hdims
      exact fun hmem => hdims.2.2 _ hmem _ List.mem_cons_self rfl
    have hfree : ∀ y ∈ done, y.Free x.dim := hdoneTidy.free List.not_mem_nil hnew
    have hself : x.Free x.dim := hx.free fun hmem => hnew ((Node.mem_scope.1 hmem).resolve_left List.not_mem_nil)
    have hsnoc : hs = (done ++ [x]) ++ rest := by simp [hsplit]
    refine ⟨magnitude_limits hfit hfollows hsplit hdone, fun v hv => ih hsnoc ?_⟩
    refine List.forall_mem_append.2 ⟨fun y hy => ?_, List.forall_mem_singleton.2 ?_⟩
    · have hne : y.dim ≠ x.dim := fun heq => hnew (heq ▸ List.mem_map_of_mem hy)
      rw [(hfree y hy).values, Function.update_of_ne hne]
      exact hdone y hy
    · rwa [hself.values, Function.update_self]

end Stack

def Instance.note (i : Instance) (ids : List InstanceId) : Legal (List InstanceId) := do
  let point ← i.point
  return ids ++ [(i.statement.computation, point)]

namespace Kernel

theorem visitAll_note {t : List Instance} {ids ids' : List InstanceId} (h : visitAll Instance.note t ids = .ok ids') :
    ids' = ids ++ t.map Instance.id := by
  induction t generalizing ids with
  | nil =>
    cases h
    simp
  | cons i t ih =>
    obtain ⟨next, hnext, h⟩ := bind_eq_ok.1 h
    obtain ⟨point, hpoint, hnext⟩ := bind_eq_ok.1 hnext
    cases hnext
    rw [ih h, Instance.point_eq (lift_eq_ok.1 hpoint), List.map_cons, List.append_assoc, List.singleton_append]

theorem exists_visitAll_note {t : List Instance} (h : ∀ i ∈ t, ∃ q, i.point = .ok q) (ids : List InstanceId) :
    ∃ ids', visitAll Instance.note t ids = .ok ids' := by
  induction t generalizing ids with
  | nil => exact ⟨ids, rfl⟩
  | cons i t ih =>
    obtain ⟨⟨q, hq⟩, h⟩ := List.forall_mem_cons.1 h
    obtain ⟨ids', hids'⟩ := ih h (ids ++ [(i.statement.computation, q)])
    exact ⟨ids', by rw [visitAll_cons, Instance.note, hq]; exact hids'⟩

theorem note_failsOnly (i : Instance) (ids : List InstanceId) : FailsOnlyBy overflowing (i.note ids) :=
  i.point_failsOnly.lift.bind fun _ _ => .ok _

end Kernel

section Initial

variable {p : Program} {s : Initial.State} {k : Kernel}

theorem exists_walk_of_arranged (ha : Initial.Arranged p s p.computations.length) (hfit : p.BoundsFit)
    (hk : Kernel.ofTree p s.roots = .ok k) : ∃ ids, k.walk Instance.note [] = .ok ids := by
  have hsmall (t : List Header × Leaf) (ht : t ∈ Node.leafStacksAll s.roots) : Small t.2.bindings outermost t.1 := by
    have hc := (Initial.mem_leaves_iff ha).1 (Node.mem_leaves_of_stack ht)
    have hget := List.getElem?_eq_getElem hc
    obtain ⟨path, ho⟩ := ha.grown.sound.occurs_of_stack ht
    rw [ha.grown.plain t ht]
    have htidy := ho.headersTidy ha.grown.sound.tidy
    have hdims := ha.grown.sound.dims.sublist (Node.dimsAll_sublist_of_stack _ ht)
    exact small_of_boundsFit (hfit _ (List.mem_of_getElem? hget)) (ha.mirrors t ht _ hget) (List.nil_append _).symm
      htidy hdims fun _ h => absurd h List.not_mem_nil
  obtain ⟨⟨body, loops⟩, hbody, hk⟩ := bind_eq_ok.1 hk
  cases hk
  obtain ⟨t, ht, hpoints⟩ := Numbering.exists_traceNodes s.roots hbody rfl ha.grown.untagged hsmall []
  obtain ⟨ids, hids⟩ := exists_visitAll_note hpoints []
  exact ⟨ids, (walk_eq_ok_iff _).2 ⟨t, ht, hids⟩⟩

theorem inOrder_of_walk (hp : p.WellFormed) (ha : Initial.Arranged p s p.computations.length)
    (hk : Kernel.ofTree p s.roots = .ok k) {ids : List InstanceId} (h : k.walk Instance.note [] = .ok ids) :
    p.InOrder ids := by
  obtain ⟨t, ht, h⟩ := (walk_eq_ok_iff _).1 h
  rw [visitAll_note h, List.nil_append, trace_eq ht, ids_of_tree hk]
  exact inOrder_of_arranged hp ha outermost

end Initial

/-- The initial tree of a described program is lowered, and its walk runs the instances of the program in their
order, unless a number overflows. None does where the bounds are of small magnitude. -/
theorem walk_initial_inOrder {description : Description} {p : Program} (hp : description.build = .ok p) :
    ∃ roots k, p.nesting = .ok roots ∧ Kernel.ofTree p roots = .ok k ∧
      (∀ ids, k.walk Instance.note [] = .ok ids → p.InOrder ids) ∧
      (∀ e, k.walk Instance.note [] = .error e → e = .fault .overflow) ∧
      (p.BoundsFit → ∃ ids, k.walk Instance.note [] = .ok ids) := by
  have hwf := Description.wellFormed_of_build hp
  obtain ⟨s, hs, ha⟩ := exists_nesting hp
  obtain ⟨k, hk⟩ := exists_ofTree_of_arranged hp ha
  exact ⟨s.roots, k, hs, hk, fun ids h => inOrder_of_walk hwf ha hk h,
    walk_failsOnly (Q := (· = overflowing)) _ rfl fun _ i _ ids _ _ => note_failsOnly i ids,
    fun hfit => exists_walk_of_arranged ha hfit hk⟩

namespace Staircase

def description : Description where
  name := "staircase"
  params := []
  buffers := [⟨"x", ["2", "2"], .float64, .temporary⟩, ⟨"y", ["2"], .float64, .output⟩]
  computations :=
    [{ name := "fill"
       iterators := [⟨"i", "0", "2"⟩, ⟨"j", "0", "i + 1"⟩]
       store := ⟨"x", ["i", "j"]⟩
       expr := .const 1.0 },
     { name := "sum"
       iterators := [⟨"i", "0", "2"⟩, ⟨"j", "i", "2"⟩]
       store := ⟨"y", ["i"]⟩
       expr := .load ⟨"x", ["i", "0"]⟩
       after := some ⟨"fill", 0⟩ }]

def fill : Computation where
  name := "fill"
  domain := [⟨"i", .ofInt 0, .ofInt 2⟩, ⟨"j", .ofInt 0, ⟨[⟨1, "i"⟩], 1⟩⟩]
  expr := .const 1.0
  store := ⟨0, [.var "i", .var "j"]⟩
  after := none

def sum : Computation where
  name := "sum"
  domain := [⟨"i", .ofInt 0, .ofInt 2⟩, ⟨"j", .var "i", .ofInt 2⟩]
  expr := .load ⟨0, [.var "i", .ofInt 0]⟩
  store := ⟨1, [.var "i"]⟩
  after := some (0, 0)

def program : Program where
  name := "staircase"
  params := []
  buffers := [⟨"x", [2, 2], .float64, .temporary⟩, ⟨"y", [2], .float64, .output⟩]
  computations := [fill, sum]

theorem build_eq : description.build = .ok program := rfl

theorem boundsFit : program.BoundsFit := by
  have hconstant {c : Int} (hc : c.natAbs < 9223372036854775808) (env : Valuation) :
      (Affine.ofInt c).magnitude env < 9223372036854775808 := hc
  have hvariable {c : Int} (hc : c.natAbs ≤ 1) {env : Valuation}
      (h : (⟨"i", .ofInt 0, .ofInt 2⟩ : Dimension).Holds env) :
      (⟨[⟨1, "i"⟩], c⟩ : Affine).magnitude env < 9223372036854775808 := by
    obtain ⟨hlower, hupper⟩ := h
    simp only [Affine.value, Affine.ofInt, Affine.termsValue] at hlower hupper
    simp only [Affine.magnitude, Affine.termsMagnitude]
    omega
  have houter (env : Valuation) := And.intro (hconstant (c := 0) (by decide) env) (hconstant (c := 2) (by decide) env)
  refine List.forall_mem_cons.2 ⟨?_, List.forall_mem_singleton.2 ?_⟩
  · exact Computation.boundsFit_of_pair rfl houter fun env h => ⟨hconstant (by decide) env, hvariable (by decide) h⟩
  · exact Computation.boundsFit_of_pair rfl houter fun env h => ⟨hvariable (by decide) h, hconstant (by decide) env⟩

end Staircase

theorem walk_initial_inOrder_staircase : ∃ roots k ids, Staircase.program.nesting = .ok roots ∧
    Kernel.ofTree Staircase.program roots = .ok k ∧ k.walk Instance.note [] = .ok ids ∧
    Staircase.program.InOrder ids := by
  obtain ⟨roots, k, hroots, hk, horder, -, hwalk⟩ := walk_initial_inOrder Staircase.build_eq
  obtain ⟨ids, hids⟩ := hwalk Staircase.boundsFit
  exact ⟨roots, k, ids, hroots, hk, hids, horder ids hids⟩

example : ∃ roots k, Staircase.program.nesting = .ok roots ∧ Kernel.ofTree Staircase.program roots = .ok k ∧
    k.walk Instance.note [] =
      .ok [(0, [0, 0]), (1, [0, 0]), (1, [0, 1]), (0, [1, 0]), (0, [1, 1]), (1, [1, 1])] := ⟨_, _, rfl, rfl, rfl⟩

namespace Distant

def description : Description where
  name := "distant"
  params := []
  buffers := [⟨"out", ["2"], .float64, .output⟩]
  computations :=
    [{ name := "c"
       iterators :=
         [⟨"i", "1", "3"⟩,
           ⟨"j", "4611686018427387904*i - 4611686018427387904", "4611686018427387904*i - 4611686018427387903"⟩]
       store := ⟨"out", ["i - 1"]⟩
       expr := .const 1.0 }]

def computation : Computation where
  name := "c"
  domain :=
    [⟨"i", .ofInt 1, .ofInt 3⟩,
      ⟨"j", ⟨[⟨4611686018427387904, "i"⟩], -4611686018427387904⟩, ⟨[⟨4611686018427387904, "i"⟩], -4611686018427387903⟩⟩]
  expr := .const 1.0
  store := ⟨0, [⟨[⟨1, "i"⟩], -1⟩]⟩
  after := none

def program : Program where
  name := "distant"
  params := []
  buffers := [⟨"out", [2], .float64, .output⟩]
  computations := [computation]

/-- A walk of the initial tree can overflow before it has come to every point of the domain. -/
theorem walk_overflows : description.build = .ok program ∧
    (computation.InDomain [1, 0] ∧ computation.InDomain [2, 4611686018427387904]) ∧
    ∃ roots k, program.nesting = .ok roots ∧ Kernel.ofTree program roots = .ok k ∧
      k.walk Instance.note [] = .error (.fault .overflow) :=
  ⟨rfl, by decide, _, _, rfl, rfl, rfl⟩

end Distant

end LoopNest
