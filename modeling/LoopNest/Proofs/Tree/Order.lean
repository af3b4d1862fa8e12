import LoopNest.Proofs.Tree.Lookup
import LoopNest.Proofs.Tree.Nest
import Mathlib.Data.List.Flatten

namespace LoopNest

def Precedes {α : Type} (xs : List α) (x y : α) : Prop := [x, y].Sublist xs

namespace Precedes

variable {α β : Type} {x y : α} {xs ys : List α}

theorem mono (h : Precedes xs x y) (hs : xs.Sublist ys) : Precedes ys x y := h.trans hs

theorem append (hx : x ∈ xs) (hy : y ∈ ys) : Precedes (xs ++ ys) x y :=
  (List.singleton_sublist.2 hx).append (List.singleton_sublist.2 hy)

theorem flatMap {ts : List β} {f : β → List α} {v w : β} (hvw : Precedes ts v w) (hx : x ∈ f v) (hy : y ∈ f w) :
    Precedes (ts.flatMap f) x y := by
  have hpair := List.Sublist.flatMap hvw f
  rw [List.flatMap_cons, List.flatMap_cons, List.flatMap_nil, List.append_nil] at hpair
  exact (append hx hy).mono hpair

theorem flatMap_of_mem {ts : List β} {f : β → List α} {v : β} (hv : v ∈ ts) (h : Precedes (f v) x y) :
    Precedes (ts.flatMap f) x y := by
  have hblock := List.Sublist.flatMap (List.singleton_sublist.2 hv) f
  rw [List.flatMap_cons, List.flatMap_nil, List.append_nil] at hblock
  exact h.mono hblock

theorem of_pairwise {r : α → α → Prop} (hr : xs.Pairwise r) (hx : x ∈ xs) (hy : y ∈ xs) (hne : x ≠ y)
    (hyx : ¬ r y x) : Precedes xs x y := by
  obtain ⟨pre, post, rfl⟩ := List.append_of_mem hy
  rw [← List.singleton_append, ← List.append_assoc]
  rcases List.mem_append.1 hx with hx | hx
  · exact (append hx (List.mem_singleton_self y)).mono (List.sublist_append_left _ _)
  · exact absurd ((List.pairwise_cons.1 (List.pairwise_append.1 hr).2.1).1 x
      ((List.mem_cons.1 hx).resolve_left hne)) hyx

end Precedes

theorem pairwise_valuesFrom (v : Int) (count : Nat) : (valuesFrom v count).Pairwise (· < ·) := by
  rw [valuesFrom, List.pairwise_map]
  exact List.pairwise_lt_range.imp fun h => by omega

namespace Header

variable {h : Header} {env : Valuation}

theorem mem_values {v : Int} : v ∈ h.values env ↔ h.lower.value env ≤ v ∧ v < h.top env := by
  rw [values, mem_valuesFrom]
  omega

theorem precedes_values {v w : Int} (hv : v ∈ h.values env) (hw : w ∈ h.values env) (hvw : v < w) :
    Precedes (h.values env) v w :=
  .of_pairwise (pairwise_valuesFrom _ _) hv hw (Int.ne_of_lt hvw) (Int.lt_asymm hvw)

end Header

namespace Node

def dimValues (hs : List Header) (e : Valuation) : List Int := hs.map fun h => e h.dim

theorem runs_of_not_mem {hs : List Header} {a : String} (ha : a ∉ hs.map Header.dim) {env e : Valuation}
    (he : e ∈ runs env hs) : e a = env a := by
  induction hs generalizing env with
  | nil => rw [List.mem_singleton.1 he]
  | cons h hs ih =>
    simp only [List.map_cons, List.mem_cons, not_or] at ha
    obtain ⟨v, -, he⟩ := List.mem_flatMap.1 he
    rw [ih ha.2 he, Function.update_of_ne ha.1]

@[simp] theorem dimValues_nil (e : Valuation) : dimValues [] e = [] := rfl

@[simp] theorem dimValues_cons (h : Header) (hs : List Header) (e : Valuation) :
    dimValues (h :: hs) e = e h.dim :: dimValues hs e := rfl

theorem dimValues_take (k : Nat) (hs : List Header) (e : Valuation) :
    (dimValues hs e).take k = dimValues (hs.take k) e := List.map_take.symm

theorem values_of_vars (hs : List Header) (e : Valuation) :
    ((hs.map fun h => Affine.var h.dim).map fun f => f.value e) = dimValues hs e := by
  rw [List.map_map]
  exact List.map_congr_left fun h _ => Affine.value_var h.dim e

theorem run_head {h : Header} {hs : List Header} (hnew : h.dim ∉ hs.map Header.dim) {env e : Valuation} {v : Int}
    (he : e ∈ runs (Function.update env h.dim v) hs) : e h.dim = v := by
  rw [runs_of_not_mem hnew he, Function.update_self]

theorem dimValues_of_run {hs ks : List Header} (h : ∀ x ∈ ks, x.dim ∉ hs.map Header.dim) {env e : Valuation}
    (he : e ∈ runs env hs) : dimValues ks e = dimValues ks env :=
  List.map_congr_left fun x hx => runs_of_not_mem (h x hx) he

section Runs

variable {hs : List Header} (hdims : (hs.map Header.dim).Nodup)
include hdims

theorem pairwise_runs (env : Valuation) : ((runs env hs).map (dimValues hs)).Pairwise (· < ·) := by
  induction hs generalizing env with
  | nil => simp [runs]
  | cons h hs ih =>
    obtain ⟨hnew, hdims⟩ := List.nodup_cons.1 hdims
    rw [List.pairwise_map, runs, List.pairwise_flatMap]
    refine ⟨fun v _ => ?_, (pairwise_valuesFrom _ _).imp fun hvw e he e' he' => ?_⟩
    · refine (List.pairwise_map.1 (ih hdims _)).imp_of_mem fun he he' hlt => ?_
      rw [dimValues_cons, dimValues_cons, run_head hnew he, run_head hnew he']
      exact List.cons_lt_cons_iff.2 (Or.inr ⟨rfl, hlt⟩)
    · rw [dimValues_cons, dimValues_cons, run_head hnew he, run_head hnew he']
      exact List.cons_lt_cons_iff.2 (Or.inl hvw)

theorem nodup_runs (env : Valuation) : ((runs env hs).map (dimValues hs)).Nodup := by
  refine (pairwise_runs hdims env).imp ?_
  rintro q _ hlt rfl
  exact List.lt_irrefl q hlt

theorem exists_run_iff {names : List String} (htidy : HeadersTidy names hs)
    {env e : Valuation} (he : ∀ a ∈ names, env a = e a) :
    (∃ e' ∈ runs env hs, dimValues hs e' = dimValues hs e) ↔ ∀ h ∈ hs, e h.dim ∈ h.values e := by
  induction hs generalizing env names with
  | nil => exact iff_of_true ⟨env, List.mem_singleton_self env, rfl⟩ nofun
  | cons h hs ih =>
    obtain ⟨hnew, hdims⟩ := List.nodup_cons.1 hdims
    obtain ⟨hheader, hrest⟩ := htidy
    have hagree : ∀ a ∈ h.dim :: names, Function.update env h.dim (e h.dim) a = e a := by
      intro a ha
      by_cases had : a = h.dim
      · rw [had, Function.update_self]
      · rw [Function.update_of_ne had]
        exact he a ((List.mem_cons.1 ha).resolve_left had)
    rw [List.forall_mem_cons, ← ih hdims hrest hagree, ← hheader.values_congr he]
    constructor
    · rintro ⟨e', hrun, hvalues⟩
      obtain ⟨v, hv, hrun⟩ := List.mem_flatMap.1 hrun
      rw [dimValues_cons, dimValues_cons, run_head hnew hrun] at hvalues
      obtain ⟨rfl, htail⟩ := List.cons.inj hvalues
      exact ⟨hv, e', hrun, htail⟩
    · rintro ⟨hv, e', hrun, hvalues⟩
      refine ⟨e', List.mem_flatMap.2 ⟨_, hv, hrun⟩, ?_⟩
      rw [dimValues_cons, dimValues_cons, run_head hnew hrun, hvalues]

end Runs

theorem mem_pointsAll {ns : List Node} {env : Valuation} {x : Nat × List Int} :
    x ∈ pointsAll env ns ↔ ∃ s ∈ leafStacksAll ns, x ∈ pointsBelow env s.1 (leaf s.2) := by
  rw [(pointsAll_perm_leafStacks ns env).mem_iff, List.mem_flatMap]

theorem mem_pointsBelow_leaf {env : Valuation} {hs : List Header} {l : Leaf} {x : Nat × List Int} :
    x ∈ pointsBelow env hs (leaf l) ↔
      ∃ e ∈ runs env hs, x = (l.computation, l.bindings.map fun f => f.value e) := by
  simp only [pointsBelow, points, List.mem_flatMap, List.mem_singleton]

theorem mem_leaves_of_points {ns : List Node} {env : Valuation} {x : Nat × List Int} (hx : x ∈ pointsAll env ns) :
    x.1 ∈ (leavesAll ns).map Leaf.computation := by
  obtain ⟨s, hs, hx⟩ := mem_pointsAll.1 hx
  obtain ⟨e, -, rfl⟩ := mem_pointsBelow_leaf.1 hx
  exact mem_leaves_of_stack hs

section Restriction

variable {n : Node} {ns ns' : List Node} {hs : List Header} {q : Nat → Bool}

theorem filter_pointsAll_of_none (hq : ∀ c ∈ (leavesAll ns).map Leaf.computation, q c = false) (env : Valuation) :
    (pointsAll env ns).filter (fun x => q x.1) = [] :=
  List.filter_eq_nil_iff.2 fun x hx => by simp [hq _ (mem_leaves_of_points hx)]

theorem filter_points_of_none (hq : ∀ c ∈ n.leaves.map Leaf.computation, q c = false) (env : Valuation) :
    (n.points env).filter (fun x => q x.1) = [] := by
  have hleaves : ∀ c ∈ (leavesAll [n]).map Leaf.computation, q c = false := by simpa [leavesAll] using hq
  have hnone := filter_pointsAll_of_none hleaves env
  rwa [pointsAll, pointsAll, List.append_nil] at hnone

theorem Removes.filter_rest (h : Removes n ns ns' hs) (hq : ∀ c ∈ n.leaves.map Leaf.computation, q c = false)
    (env : Valuation) : (pointsAll env ns).filter (fun x => q x.1) = (pointsAll env ns').filter fun x => q x.1 := by
  induction h generalizing env with
  | here pre post =>
    simp only [pointsAll_append, pointsAll, List.filter_append, filter_points_of_none hq, List.nil_append]
  | under hd pre post hb ih =>
    simp only [pointsAll_append, pointsAll, points, List.filter_append, List.filter_flatMap, ih]
  | @prune hd pre post body hs hb ih =>
    have hnone : ((loop hd body).points env).filter (fun x => q x.1) = [] := by
      rw [points, List.filter_flatMap]
      exact List.flatMap_eq_nil_iff.2 fun v _ => ih _
    simp only [pointsAll_append, pointsAll, List.filter_append, hnone, List.nil_append]

theorem Removes.filter_branch (h : Removes n ns ns' hs)
    (hq : ∀ c ∈ (leavesAll ns').map Leaf.computation, q c = false) (env : Valuation) :
    (pointsAll env ns).filter (fun x => q x.1) = (pointsBelow env hs n).filter fun x => q x.1 := by
  induction h generalizing env with
  | here pre post =>
    rw [leavesAll_append, List.map_append] at hq
    obtain ⟨hpre, hpost⟩ := List.forall_mem_append.1 hq
    simp only [pointsAll_append, pointsAll, List.filter_append, filter_pointsAll_of_none hpre,
      filter_pointsAll_of_none hpost, pointsBelow_nil, List.nil_append, List.append_nil]
  | under hd pre post hb ih =>
    rw [leavesAll_append, leavesAll, leaves, List.map_append, List.map_append] at hq
    obtain ⟨hpre, hrest⟩ := List.forall_mem_append.1 hq
    obtain ⟨hbody, hpost⟩ := List.forall_mem_append.1 hrest
    simp only [pointsAll_append, pointsAll, points, List.filter_append, filter_pointsAll_of_none hpre,
      filter_pointsAll_of_none hpost, pointsBelow_cons, List.filter_flatMap, ih hbody, List.nil_append, List.append_nil]
  | prune hd pre post hb ih =>
    rw [leavesAll_append, List.map_append] at hq
    obtain ⟨hpre, hpost⟩ := List.forall_mem_append.1 hq
    simp only [pointsAll_append, pointsAll, points, List.filter_append, filter_pointsAll_of_none hpre,
      filter_pointsAll_of_none hpost, pointsBelow_cons, List.filter_flatMap, ih nofun, List.nil_append, List.append_nil]

end Restriction

theorem Removes.apart {n : Node} {ns ns' : List Node} {hs : List Header} (h : Removes n ns ns' hs)
    (hleaves : ((leavesAll ns).map Leaf.computation).Nodup) {c : Nat} (hc : c ∈ n.leaves.map Leaf.computation) :
    c ∉ (leavesAll ns').map Leaf.computation := by
  rw [(h.leaves_perm.map _).nodup_iff, List.map_append, List.nodup_append] at hleaves
  exact fun hrest => hleaves.2.2 c hc c hrest rfl

theorem Occurs.filter_points {l : Leaf} {ns : List Node} {path : Path} {hs : List Header}
    (ho : Occurs (leaf l) ns path hs) (hleaves : ((leavesAll ns).map Leaf.computation).Nodup) (env : Valuation) :
    (pointsAll env ns).filter (fun x => x.1 == l.computation) = pointsBelow env hs (leaf l) := by
  have hrest := ho.removes.apart hleaves (c := l.computation) (by simp [leaves])
  have hq : ∀ c ∈ (leavesAll (detach path ns)).map Leaf.computation, (c == l.computation) = false :=
    fun c hc => beq_false_of_ne fun heq : c = l.computation => hrest (heq ▸ hc)
  rw [ho.removes.filter_branch hq env]
  refine List.filter_eq_self.2 fun x hx => ?_
  obtain ⟨e, -, rfl⟩ := mem_pointsBelow_leaf.1 hx
  exact beq_self_eq_true _

theorem Inserts.points_sublist {n : Node} {ns ns' : List Node} {hs : List Header} (h : Inserts n ns ns' hs)
    (env : Valuation) : (pointsAll env ns).Sublist (pointsAll env ns') := by
  induction h generalizing env with
  | here pre post =>
    rw [pointsAll_append, pointsAll_append, pointsAll]
    exact (List.Sublist.refl _).append (List.sublist_append_right _ _)
  | under h pre post hb ih =>
    rw [pointsAll_append, pointsAll_append, pointsAll, pointsAll, points, points]
    exact (List.Sublist.refl _).append
      ((List.Sublist.flatMap_right _ fun v _ => ih _).append (List.Sublist.refl _))

theorem infix_iteration {hd : Header} {env : Valuation} {v : Int} (hv : v ∈ hd.values env) (body : List Node) :
    pointsAll (Function.update env hd.dim v) body <:+: (loop hd body).points env := by
  rw [points, List.flatMap_def]
  exact List.infix_of_mem_flatten (List.mem_map_of_mem hv)

theorem Occurs.infix_points {n : Node} {ns : List Node} {path : Path} {hs : List Header} (ho : Occurs n ns path hs)
    {env e : Valuation} (he : e ∈ runs env hs) : n.points e <:+: pointsAll env ns := by
  induction ho generalizing env with
  | here pre post =>
    rw [List.mem_singleton.1 he, pointsAll_append, pointsAll]
    exact ⟨_, _, List.append_assoc _ _ _⟩
  | @under h pre post body path hs hb ih =>
    obtain ⟨v, hv, he⟩ := List.mem_flatMap.1 he
    rw [pointsAll_append, pointsAll]
    exact ((ih he).trans (infix_iteration hv body)).trans ⟨_, _, List.append_assoc _ _ _⟩

theorem Occurs.infix_body {hd : Header} {body ns : List Node} {path : Path} {hs : List Header}
    (ho : Occurs (loop hd body) ns path hs) {env e : Valuation} (he : e ∈ runs env (hs ++ [hd])) :
    pointsAll e body <:+: pointsAll env ns := by
  rw [runs_append, List.mem_flatMap] at he
  obtain ⟨around, haround, he⟩ := he
  obtain ⟨v, hv, he⟩ := List.mem_flatMap.1 he
  rw [List.mem_singleton.1 he]
  exact (infix_iteration hv body).trans (ho.infix_points haround)

theorem Occurs.mem_pointsAll {n : Node} {ns : List Node} {path : Path} {hs : List Header}
    (ho : Occurs n ns path hs) {env e : Valuation} (he : e ∈ runs env hs) {x : Nat × List Int}
    (hx : x ∈ n.points e) : x ∈ pointsAll env ns := (ho.infix_points he).subset hx

theorem Inserts.mem_of_new {n : Node} {ns ns' : List Node} {hs : List Header} (h : Inserts n ns ns' hs)
    {env e : Valuation} (he : e ∈ runs env hs) {x : Nat × List Int} (hx : x ∈ n.points e) :
    x ∈ pointsAll env ns' :=
  ((h.removes.points_perm env).mem_iff).2 (List.mem_append_left _ (List.mem_flatMap.2 ⟨e, he, hx⟩))

theorem Occurs.precedes_last {n x : Node} {ns : List Node} {path : Path} {hs : List Header} (ho : Occurs n ns path hs)
    {env e : Valuation} (he : e ∈ runs env hs) {a b : Nat × List Int} (ha : a ∈ n.points e) (hb : b ∈ x.points env) :
    Precedes (pointsAll env (ns ++ [x])) a b := by
  rw [pointsAll_append]
  exact .append (ho.mem_pointsAll he ha) (by rwa [pointsAll, pointsAll, List.append_nil])

theorem Occurs.precedes_of_append {n x : Node} {ns : List Node} {path : Path} {hs : List Header}
    (ho : Occurs n ns path hs) {k : Nat} (hk : k ≤ hs.length) (hdims : (hs.map Header.dim).Nodup)
    {env e e' : Valuation} (he : e ∈ runs env hs) (he' : e' ∈ runs env (hs.take k)) {a b : Nat × List Int}
    (ha : a ∈ n.points e) (hb : b ∈ x.points e') :
    (dimValues (hs.take k) e = dimValues (hs.take k) e' →
      Precedes (pointsAll env (modifyChildren (· ++ [x]) (path.take k) ns)) a b) ∧
    (dimValues (hs.take k) e' < dimValues (hs.take k) e →
      Precedes (pointsAll env (modifyChildren (· ++ [x]) (path.take k) ns)) b a) := by
  induction ho generalizing k env with
  | here pre post =>
    obtain rfl : k = 0 := Nat.le_zero.1 hk
    rw [List.mem_singleton.1 he'] at hb
    exact ⟨fun _ => (Occurs.here pre post).precedes_last he ha hb, fun hlt => absurd hlt (List.not_lt_nil _)⟩
  -- the outermost loop they share decides, unless both are in the same iteration of it
  | @under h pre post body path hs hbody ih =>
    cases k with
    | zero =>
      rw [List.mem_singleton.1 he'] at hb
      exact ⟨fun _ => (Occurs.under h pre post hbody).precedes_last he ha hb,
        fun hlt => absurd hlt (List.not_lt_nil _)⟩
    | succ k =>
      obtain ⟨hnew, hdims⟩ := List.nodup_cons.1 hdims
      have hnewTake : h.dim ∉ (hs.take k).map Header.dim := fun hmem =>
        hnew ((List.take_sublist k hs).map Header.dim |>.subset hmem)
      obtain ⟨v, hv, he⟩ := List.mem_flatMap.1 he
      obtain ⟨v', hv', he'⟩ := List.mem_flatMap.1 he'
      have hk := Nat.le_of_succ_le_succ hk
      have hloop : (points env (loop h (modifyChildren (· ++ [x]) (path.take k) body))).Sublist
          (pointsAll env (modifyChildren (· ++ [x]) ((pre.length :: path).take (k + 1))
            (pre ++ loop h body :: post))) := by
        rw [List.take_succ_cons, modifyChildren, modify_length, pointsAll_append, pointsAll]
        exact (List.sublist_append_left _ _).trans (List.sublist_append_right _ _)
      have hinserts := hbody.insertsChild hk x
      simp only [List.take_succ_cons, dimValues_cons, run_head hnew he, run_head hnewTake he']
      constructor
      · intro heq
        obtain ⟨rfl, htail⟩ := List.cons.inj heq
        exact (Precedes.flatMap_of_mem hv ((ih hk hdims he he').1 htail)).mono hloop
      · intro hlt
        rcases List.cons_lt_cons_iff.1 hlt with hhead | ⟨rfl, htail⟩
        · exact (Precedes.flatMap (Header.precedes_values hv' hv hhead) (hinserts.mem_of_new he' hb)
            ((hinserts.points_sublist _).subset (hbody.mem_pointsAll he ha))).mono hloop
        · exact (Precedes.flatMap_of_mem hv ((ih hk hdims he he').2 htail)).mono hloop

end Node

end LoopNest
