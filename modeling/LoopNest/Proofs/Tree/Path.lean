import LoopNest.Proofs.Tree.Points
import LoopNest.Tree.Path
import Mathlib.Data.List.Perm.Basic

namespace LoopNest.Node

inductive Occurs (n : Node) : List Node → Path → List Header → Prop
  | here (pre post : List Node) : Occurs n (pre ++ n :: post) [pre.length] []
  | under (h : Header) (pre post : List Node) {body : List Node} {path : Path} {hs : List Header}
      (hb : Occurs n body path hs) : Occurs n (pre ++ loop h body :: post) (pre.length :: path) (h :: hs)

inductive Replaces (n n' : Node) : List Node → List Node → List Header → Prop
  | here (pre post : List Node) : Replaces n n' (pre ++ n :: post) (pre ++ n' :: post) []
  | under (h : Header) (pre post : List Node) {body body' : List Node} {hs : List Header}
      (hb : Replaces n n' body body' hs) :
      Replaces n n' (pre ++ loop h body :: post) (pre ++ loop h body' :: post) (h :: hs)

inductive Removes (n : Node) : List Node → List Node → List Header → Prop
  | here (pre post : List Node) : Removes n (pre ++ n :: post) (pre ++ post) []
  | under (h : Header) (pre post : List Node) {body body' : List Node} {hs : List Header}
      (hb : Removes n body body' hs) :
      Removes n (pre ++ loop h body :: post) (pre ++ loop h body' :: post) (h :: hs)
  | prune (h : Header) (pre post : List Node) {body : List Node} {hs : List Header}
      (hb : Removes n body [] hs) : Removes n (pre ++ loop h body :: post) (pre ++ post) (h :: hs)

inductive Inserts (n : Node) : List Node → List Node → List Header → Prop
  | here (pre post : List Node) : Inserts n (pre ++ post) (pre ++ n :: post) []
  | under (h : Header) (pre post : List Node) {body body' : List Node} {hs : List Header}
      (hb : Inserts n body body' hs) :
      Inserts n (pre ++ loop h body :: post) (pre ++ loop h body' :: post) (h :: hs)

theorem Inserts.last {n : Node} (ns : List Node) : Inserts n ns (ns ++ [n]) [] := by
  simpa using Inserts.here (n := n) ns []

def onBody (g : List Node → List Node) : Node → Node
  | loop h body => loop h (g body)
  | leaf l => leaf l

theorem modifyAt_cons (f : Node → Node) (i : Nat) {rest : Path} (hne : rest ≠ []) (ns : List Node) :
    modifyAt f (i :: rest) ns = ns.modify i (onBody (modifyAt f rest)) := by
  obtain ⟨j, rest, rfl⟩ := List.exists_cons_of_ne_nil hne
  rw [modifyAt]
  · rfl
  · exact List.cons_ne_nil j rest

theorem above_cons (i : Nat) {rest : Path} (hne : rest ≠ []) (ns : List Node) :
    above ns (i :: rest) =
      match ns[i]? with
      | some (loop h body) => (h, body) :: above body rest
      | _ => [] := by
  obtain ⟨j, rest, rfl⟩ := List.exists_cons_of_ne_nil hne
  rfl

namespace Occurs

variable {n : Node} {ns : List Node} {path : Path} {hs : List Header}

theorem ne_nil (h : Occurs n ns path hs) : path ≠ [] := by
  cases h <;> exact List.cons_ne_nil _ _

theorem length_path (h : Occurs n ns path hs) : path.length = hs.length + 1 := by
  induction h with
  | here pre post => rfl
  | under h pre post hb ih => rw [List.length_cons, List.length_cons, ih]

theorem at?_eq (h : Occurs n ns path hs) : at? ns path = some n := by
  induction h with
  | here pre post => exact getElem?_length pre post n
  | @under hd pre post body path hs hb ih =>
    obtain ⟨j, path, rfl⟩ := List.exists_cons_of_ne_nil hb.ne_nil
    rw [at?, getElem?_length]
    · exact ih
    · simp

theorem above_eq (h : Occurs n ns path hs) : (above ns path).map Prod.fst = hs := by
  induction h with
  | here pre post => rfl
  | under hd pre post hb ih => rw [above_cons _ hb.ne_nil, getElem?_length, List.map_cons, ih]

theorem replaces (h : Occurs n ns path hs) (f : Node → Node) :
    Replaces n (f n) ns (modifyAt f path ns) hs := by
  induction h with
  | here pre post =>
    rw [modifyAt, modify_length]
    exact .here pre post
  | under hd pre post hb ih =>
    rw [modifyAt_cons f _ hb.ne_nil, modify_length]
    exact .under hd pre post ih

theorem replaces_header {h : Header} {body : List Node} (ho : Occurs (loop h body) ns path hs)
    (h' : Header) : Replaces (loop h body) (loop h' body) ns (setHeader h' path ns) hs := by
  have hreplaces (f : Node → Node) (hf : f (loop h body) = loop h' body) :
      Replaces (loop h body) (loop h' body) ns (modifyAt f path ns) hs := hf ▸ ho.replaces f
  exact hreplaces _ rfl

theorem removes (h : Occurs n ns path hs) : Removes n ns (detach path ns) hs := by
  induction h with
  | here pre post =>
    rw [detach, List.eraseIdx_append_of_length_le (Nat.le_refl _), Nat.sub_self, List.eraseIdx_cons_zero]
    exact .here pre post
  | @under hd pre post body path hs hb ih =>
    obtain ⟨j, path, rfl⟩ := List.exists_cons_of_ne_nil hb.ne_nil
    rw [detach, getElem?_length]
    · simp only
      split
      · next he =>
        rw [List.eraseIdx_append_of_length_le (Nat.le_refl _), Nat.sub_self, List.eraseIdx_cons_zero]
        exact .prune hd pre post (he ▸ ih)
      · simp only [List.set_append_right _ _ (Nat.le_refl _), Nat.sub_self, List.set_cons_zero]
        exact .under hd pre post ih
    · simp

theorem inserts (h : Occurs n ns path hs) (x : Node) : Inserts x ns (insertBehind x path ns) hs := by
  induction h with
  | here pre post =>
    rw [insertBehind, insertIdx_length]
    simpa using Inserts.here (n := x) (pre ++ [n]) post
  | @under hd pre post body path hs hb ih =>
    obtain ⟨j, path, rfl⟩ := List.exists_cons_of_ne_nil hb.ne_nil
    rw [insertBehind, modify_length]
    · exact .under hd pre post ih
    · simp

theorem insertsChild (h : Occurs n ns path hs) {k : Nat} (hk : k ≤ hs.length) (x : Node) :
    Inserts x ns (modifyChildren (· ++ [x]) (path.take k) ns) (hs.take k) := by
  induction h generalizing k with
  | here pre post =>
    obtain rfl : k = 0 := Nat.le_zero.1 hk
    exact .last _
  | @under hd pre post body path hs hb ih =>
    cases k with
    | zero => exact .last _
    | succ k =>
      rw [List.take_succ_cons, List.take_succ_cons, modifyChildren, modify_length]
      exact .under hd pre post (ih (Nat.le_of_succ_le_succ hk))

theorem leaves_subset (h : Occurs n ns path hs) : n.leaves ⊆ leavesAll ns := by
  induction h with
  | here pre post =>
    rw [leavesAll_eq_flatMap, List.flatMap_append, List.flatMap_cons]
    exact fun l hl => List.mem_append_right _ (List.mem_append_left _ hl)
  | under hd pre post hb ih =>
    rw [leavesAll_eq_flatMap, List.flatMap_append, List.flatMap_cons, leaves]
    exact fun l hl => List.mem_append_right _ (List.mem_append_left _ (ih hl))

theorem take (h : Occurs n ns path hs) {k : Nat} (hk : k ≤ hs.length) :
    ∃ x, Occurs x ns (path.take (k + 1)) (hs.take k) ∧ n.leaves ⊆ x.leaves := by
  induction h generalizing k with
  | here pre post =>
    obtain rfl : k = 0 := Nat.le_zero.1 hk
    exact ⟨n, .here pre post, List.Subset.refl _⟩
  | @under hd pre post body path hs hb ih =>
    cases k with
    | zero => exact ⟨loop hd body, .here pre post, hb.leaves_subset⟩
    | succ k =>
      obtain ⟨x, hx, hleaves⟩ := ih (Nat.le_of_succ_le_succ hk)
      exact ⟨x, .under hd pre post hx, hleaves⟩

theorem take_loop (h : Occurs n ns path hs) {k : Nat} (hk : k < hs.length) :
    ∃ body, Occurs (loop hs[k] body) ns (path.take (k + 1)) (hs.take k) := by
  induction h generalizing k with
  | here pre post => cases hk
  | @under hd pre post body path hs hb ih =>
    cases k with
    | zero => exact ⟨body, .here pre post⟩
    | succ k =>
      obtain ⟨inside, ho⟩ := ih (Nat.lt_of_succ_lt_succ hk)
      exact ⟨inside, .under hd pre post ho⟩

theorem eq_cons (h : Occurs n ns path hs) :
    (∃ i, path = [i] ∧ hs = [] ∧ ns[i]? = some n) ∨
      ∃ i rest hd body hs', path = i :: rest ∧ hs = hd :: hs' ∧ ns[i]? = some (loop hd body) ∧
        Occurs n body rest hs' := by
  cases h with
  | here pre post => exact Or.inl ⟨_, rfl, rfl, getElem?_length pre post n⟩
  | under hd pre post hb => exact Or.inr ⟨_, _, hd, _, _, rfl, rfl, getElem?_length pre post _, hb⟩

theorem exists_under {hd : Header} (h : Occurs n ns path (hd :: hs)) : ∃ pre post body rest,
    ns = pre ++ loop hd body :: post ∧ path = pre.length :: rest ∧ Occurs n body rest hs := by
  cases h with
  | under _ pre post hb => exact ⟨pre, post, _, _, rfl, rfl, hb⟩

theorem take_eq (h : Occurs n ns path hs) {x : Node} {path' : Path} {hs' : List Header}
    (h' : Occurs x ns path' hs') {k : Nat} (hk : path.take k = path'.take k) (hlt : k < path.length)
    (hlt' : k < path'.length) : hs.take k = hs'.take k := by
  induction k generalizing ns path hs path' hs' with
  | zero => rfl
  | succ k ih =>
    obtain ⟨i, rfl, -, -⟩ | ⟨i, rest, hd, body, hs, rfl, rfl, hi, hb⟩ := h.eq_cons
    · simp at hlt
    obtain ⟨j, rfl, -, -⟩ | ⟨j, rest', hd', body', hs', rfl, rfl, hj, hb'⟩ := h'.eq_cons
    · simp at hlt'
    obtain ⟨rfl, hrest⟩ := List.cons.inj hk
    cases hi.symm.trans hj
    rw [List.take_succ_cons, List.take_succ_cons,
      ih hb hb' hrest (by simpa using hlt) (by simpa using hlt')]

end Occurs

def scope (names : List String) : List Header → List String
  | [] => names
  | h :: hs => scope (h.dim :: names) hs

theorem mem_scope {names : List String} {hs : List Header} {a : String} :
    a ∈ scope names hs ↔ a ∈ names ∨ a ∈ hs.map Header.dim := by
  induction hs generalizing names with
  | nil => simp [scope]
  | cons h hs ih =>
    rw [scope, ih, List.mem_cons, List.map_cons, List.mem_cons]
    tauto

def runs (env : Valuation) : List Header → List Valuation
  | [] => [env]
  | h :: hs => (h.values env).flatMap fun v => runs (Function.update env h.dim v) hs

def pointsBelow (env : Valuation) (hs : List Header) (n : Node) : List (Nat × List Int) :=
  (runs env hs).flatMap fun e => n.points e

theorem pointsBelow_nil (env : Valuation) (n : Node) : pointsBelow env [] n = n.points env := by
  simp [pointsBelow, runs]

theorem pointsBelow_cons (env : Valuation) (h : Header) (hs : List Header) (n : Node) :
    pointsBelow env (h :: hs) n =
      (h.values env).flatMap fun v => pointsBelow (Function.update env h.dim v) hs n := by
  simp only [pointsBelow, runs, List.flatMap_assoc]

section Context

variable {n n' : Node} {ns ns' : List Node} {hs : List Header}

theorem pointsAll_append (env : Valuation) (ms ns : List Node) :
    pointsAll env (ms ++ ns) = pointsAll env ms ++ pointsAll env ns := by
  simp only [pointsAll_eq_flatMap, List.flatMap_append]

theorem dimsAll_append (ms ns : List Node) : dimsAll (ms ++ ns) = dimsAll ms ++ dimsAll ns := by
  simp only [dimsAll_eq_flatMap, List.flatMap_append]

theorem leavesAll_append (ms ns : List Node) : leavesAll (ms ++ ns) = leavesAll ms ++ leavesAll ns := by
  simp only [leavesAll_eq_flatMap, List.flatMap_append]

theorem tidyAll_append {p : Program} {names : List String} {ms ns : List Node} :
    TidyAll p names (ms ++ ns) ↔ TidyAll p names ms ∧ TidyAll p names ns := by
  simp only [tidyAll_iff, List.mem_append, or_imp, forall_and]

theorem Occurs.tidy {p : Program} {names : List String} {path : Path} (h : Occurs n ns path hs)
    (ht : TidyAll p names ns) : n.Tidy p (scope names hs) := by
  induction h generalizing names with
  | here pre post => exact (tidyAll_append.1 ht).2.1
  | under hd pre post hb ih => exact ih (tidyAll_append.1 ht).2.1.2

theorem Occurs.dims_sublist {path : Path} (h : Occurs n ns path hs) :
    (hs.map Header.dim ++ n.dims).Sublist (dimsAll ns) := by
  induction h with
  | here pre post =>
    rw [dimsAll_append, dimsAll]
    exact (List.sublist_append_left _ _).trans (List.sublist_append_right _ _)
  | @under hd pre post body path hs hb ih =>
    rw [dimsAll_append, dimsAll, dims]
    refine List.Sublist.trans ?_ (List.sublist_append_right _ _)
    exact (ih.cons_cons hd.dim).trans (List.sublist_append_left _ _)

namespace Replaces

theorem points_perm (h : Replaces n n' ns ns' hs) (env : Valuation)
    (hn : ∀ e, (n'.points e).Perm (n.points e)) : (pointsAll env ns').Perm (pointsAll env ns) := by
  induction h generalizing env with
  | here pre post =>
    rw [pointsAll_append, pointsAll_append, pointsAll, pointsAll]
    exact ((hn env).append_right _).append_left _
  | under hd pre post hb ih =>
    rw [pointsAll_append, pointsAll_append, pointsAll, pointsAll, points, points]
    refine ((List.Perm.flatMap_left _ fun v _ => ih _).append_right _).append_left _

theorem points_eq (h : Replaces n n' ns ns' hs) (env : Valuation) (hn : ∀ e, n'.points e = n.points e) :
    pointsAll env ns' = pointsAll env ns := by
  induction h generalizing env with
  | here pre post => rw [pointsAll_append, pointsAll_append, pointsAll, pointsAll, hn]
  | under hd pre post hb ih =>
    rw [pointsAll_append, pointsAll_append, pointsAll, pointsAll, points, points]
    congr 2
    exact List.flatMap_congr fun v _ => ih _

theorem dims_eq (h : Replaces n n' ns ns' hs) :
    ∃ pre post, dimsAll ns = pre ++ n.dims ++ post ∧ dimsAll ns' = pre ++ n'.dims ++ post := by
  induction h with
  | here pre post =>
    refine ⟨dimsAll pre, dimsAll post, ?_, ?_⟩ <;> rw [dimsAll_append, dimsAll, List.append_assoc]
  | under hd pre post hb ih =>
    obtain ⟨a, b, hab, hab'⟩ := ih
    refine ⟨dimsAll pre ++ hd.dim :: a, b ++ dimsAll post, ?_, ?_⟩
    · rw [dimsAll_append, dimsAll, dims, hab]
      simp
    · rw [dimsAll_append, dimsAll, dims, hab']
      simp

theorem nodup_dims (h : Replaces n n' ns ns' hs) {fresh : List String} (hfresh : (fresh ++ dimsAll ns).Nodup)
    (hdims : n'.dims.Subperm (fresh ++ n.dims)) : (dimsAll ns').Nodup := by
  obtain ⟨pre, post, hns, hns'⟩ := h.dims_eq
  rw [hns', List.nodup_iff_count]
  rw [List.nodup_iff_count] at hfresh
  intro a
  have hbefore := hfresh a
  have hnode := hdims.count_le a
  rw [hns] at hbefore
  simp only [List.count_append] at hbefore hnode ⊢
  omega

theorem leaves_eq (h : Replaces n n' ns ns' hs) :
    ∃ pre post, leavesAll ns = pre ++ n.leaves ++ post ∧ leavesAll ns' = pre ++ n'.leaves ++ post := by
  induction h with
  | here pre post =>
    refine ⟨leavesAll pre, leavesAll post, ?_, ?_⟩ <;> rw [leavesAll_append, leavesAll, List.append_assoc]
  | under hd pre post hb ih =>
    obtain ⟨a, b, hab, hab'⟩ := ih
    refine ⟨leavesAll pre ++ a, b ++ leavesAll post, ?_, ?_⟩
    · rw [leavesAll_append, leavesAll, leaves, hab]
      simp
    · rw [leavesAll_append, leavesAll, leaves, hab']
      simp

theorem tidy {p : Program} {names : List String} (h : Replaces n n' ns ns' hs) (ht : TidyAll p names ns)
    (hn : n.Tidy p (scope names hs) → n'.Tidy p (scope names hs)) : TidyAll p names ns' := by
  induction h generalizing names with
  | here pre post =>
    obtain ⟨hpre, hnode, hpost⟩ := tidyAll_append.1 ht
    exact tidyAll_append.2 ⟨hpre, hn hnode, hpost⟩
  | under hd pre post hb ih =>
    obtain ⟨hpre, ⟨hhd, hbody⟩, hpost⟩ := tidyAll_append.1 ht
    exact tidyAll_append.2 ⟨hpre, ⟨hhd, ih hbody hn⟩, hpost⟩

end Replaces

namespace Removes

theorem points_perm (h : Removes n ns ns' hs) (env : Valuation) :
    (pointsAll env ns).Perm (pointsBelow env hs n ++ pointsAll env ns') := by
  induction h generalizing env with
  | here pre post =>
    rw [pointsAll_append, pointsAll_append, pointsAll, pointsBelow_nil]
    exact perm_to_front (.refl _)
  | under hd pre post hb ih =>
    rw [pointsAll_append, pointsAll_append, pointsAll, pointsAll, pointsBelow_cons]
    refine perm_swap_middle ?_
    rw [points, points]
    exact (List.Perm.flatMap_left _ fun v _ => ih _).trans (List.flatMap_append_perm _ _ _).symm
  | prune hd pre post hb ih =>
    rw [pointsAll_append, pointsAll_append, pointsAll, pointsBelow_cons]
    refine perm_to_front ?_
    rw [points]
    exact List.Perm.flatMap_left _ fun v _ => by simpa [pointsAll] using ih _

theorem dims_perm (h : Removes n ns ns' hs) :
    ∃ pruned, (dimsAll ns).Perm (n.dims ++ dimsAll ns' ++ pruned) := by
  induction h with
  | here pre post =>
    refine ⟨[], List.perm_iff_count.2 fun a => ?_⟩
    simp only [dimsAll_append, dimsAll, List.count_append, List.count_nil]
    omega
  | under hd pre post hb ih =>
    obtain ⟨pruned, hperm⟩ := ih
    refine ⟨pruned, List.perm_iff_count.2 fun a => ?_⟩
    have ha := hperm.count_eq a
    simp only [dimsAll_append, dimsAll, dims, List.count_append, List.count_cons] at ha ⊢
    omega
  | prune hd pre post hb ih =>
    obtain ⟨pruned, hperm⟩ := ih
    refine ⟨hd.dim :: pruned, List.perm_iff_count.2 fun a => ?_⟩
    have ha := hperm.count_eq a
    simp only [dimsAll_append, dimsAll, dims, List.count_append, List.count_cons, List.count_nil] at ha ⊢
    omega

theorem leaves_perm (h : Removes n ns ns' hs) : (leavesAll ns).Perm (n.leaves ++ leavesAll ns') := by
  induction h with
  | here pre post =>
    rw [leavesAll_append, leavesAll_append, leavesAll]
    exact perm_to_front (.refl _)
  | under hd pre post hb ih =>
    rw [leavesAll_append, leavesAll_append, leavesAll, leavesAll, leaves, leaves]
    exact perm_swap_middle ih
  | prune hd pre post hb ih =>
    rw [leavesAll_append, leavesAll_append, leavesAll, leaves]
    exact perm_to_front (by simpa [leavesAll] using ih)

theorem tidy {p : Program} {names : List String} (h : Removes n ns ns' hs) (ht : TidyAll p names ns) :
    TidyAll p names ns' := by
  induction h generalizing names with
  | here pre post =>
    obtain ⟨hpre, -, hpost⟩ := tidyAll_append.1 ht
    exact tidyAll_append.2 ⟨hpre, hpost⟩
  | under hd pre post hb ih =>
    obtain ⟨hpre, ⟨hhd, hbody⟩, hpost⟩ := tidyAll_append.1 ht
    exact tidyAll_append.2 ⟨hpre, ⟨hhd, ih hbody⟩, hpost⟩
  | prune hd pre post hb ih =>
    obtain ⟨hpre, -, hpost⟩ := tidyAll_append.1 ht
    exact tidyAll_append.2 ⟨hpre, hpost⟩

end Removes

namespace Inserts

theorem removes (h : Inserts n ns ns' hs) : Removes n ns' ns hs := by
  induction h with
  | here pre post => exact .here pre post
  | under hd pre post hb ih => exact .under hd pre post ih

theorem dims_perm (h : Inserts n ns ns' hs) : (dimsAll ns').Perm (n.dims ++ dimsAll ns) := by
  induction h with
  | here pre post =>
    rw [dimsAll_append, dimsAll_append, dimsAll]
    exact perm_to_front (.refl _)
  | under hd pre post hb ih =>
    refine List.perm_iff_count.2 fun a => ?_
    have ha := ih.count_eq a
    simp only [dimsAll_append, dimsAll, dims, List.count_append, List.count_cons] at ha ⊢
    omega

theorem tidy {p : Program} {names : List String} (h : Inserts n ns ns' hs) (ht : TidyAll p names ns)
    (hn : n.Tidy p (scope names hs)) : TidyAll p names ns' := by
  induction h generalizing names with
  | here pre post =>
    obtain ⟨hpre, hpost⟩ := tidyAll_append.1 ht
    exact tidyAll_append.2 ⟨hpre, hn, hpost⟩
  | under hd pre post hb ih =>
    obtain ⟨hpre, ⟨hhd, hbody⟩, hpost⟩ := tidyAll_append.1 ht
    exact tidyAll_append.2 ⟨hpre, ⟨hhd, ih hbody hn⟩, hpost⟩

end Inserts

end Context

end LoopNest.Node
