import LoopNest.Proofs.Transform.Conserves
import LoopNest.Proofs.Tree.Initial
import LoopNest.Transform.Fuse

namespace LoopNest

open Node

theorem renameLoop_eq_apply (pairs : List (String × String)) :
    renameLoop pairs = Initial.Renaming.apply pairs := rfl

theorem partsAt_eq_some {level depth : Nat} {path path' : Path} (h : partsAt level path path' = some depth) :
    depth ≤ level ∧ path.take depth = path'.take depth := by
  fun_induction partsAt level path path' generalizing depth with
  | case1 => cases h
  | case2 =>
    cases h
    exact ⟨Nat.le_refl _, rfl⟩
  | case3 level i is js ih =>
    obtain ⟨d, hd, rfl⟩ := Option.map_eq_some_iff.1 h
    obtain ⟨hle, htake⟩ := ih hd
    exact ⟨Nat.succ_le_succ hle, by rw [List.take_succ_cons, List.take_succ_cons, htake]⟩
  | case4 =>
    cases h
    exact ⟨Nat.zero_le _, rfl⟩
  | case5 => cases h

theorem sameForm_eq_true {m : String → Affine} {moved kept : Affine} (h : sameForm m moved kept = .ok true) :
    moved.bindVars m = .ok kept := by
  obtain ⟨f, hf, h⟩ := bind_eq_ok.1 h
  rw [hf, ← show f = kept by simpa [pure_eq_ok] using h]

theorem sameClamp_eq_true {m : String → Affine} {moved kept : Option Affine}
    (h : sameClamp m moved kept = .ok true) : (moved = none ∧ kept = none) ∨
      ∃ c c', moved = some c ∧ c.bindVars m = .ok c' ∧ kept = some c' := by
  cases moved with
  | none =>
    cases kept with
    | none => exact Or.inl ⟨rfl, rfl⟩
    | some c' => cases h
  | some c =>
    cases kept with
    | none =>
      obtain ⟨f, -, h⟩ := bind_eq_ok.1 h
      cases h
    | some c' => exact Or.inr ⟨c, c', rfl, sameForm_eq_true h, rfl⟩

theorem sameHeader_eq_true {m : String → Affine} {moved kept : Header}
    (h : sameHeader m moved kept = .ok true) : moved.Bound m kept := by
  obtain ⟨lower, hlower, h⟩ := bind_eq_ok.1 h
  split at h
  · cases h
  · next hl =>
    obtain ⟨upper, hupper, h⟩ := bind_eq_ok.1 h
    split at h
    · cases h
    · next hu =>
      obtain rfl : lower = true := by simpa using hl
      obtain rfl : upper = true := by simpa using hu
      exact ⟨sameForm_eq_true hlower, sameForm_eq_true hupper, sameClamp_eq_true h⟩

theorem checkMatched_eq_ok {t : Transformation} {m : String → Affine} {matched : List (Header × Header)}
    (h : checkMatched t m matched = .ok ()) :
    ∀ pair ∈ matched, pair.2.Bound m pair.1 ∧ pair.1.tags = {} ∧ pair.2.tags = {} := by
  induction matched with
  | nil => simp
  | cons pair rest ih =>
    rw [checkMatched] at h
    split at h
    · cases h
    · next huntagged =>
      simp only [bind_eq_ok, lift_eq_ok] at h
      obtain ⟨same, hsame, h⟩ := h
      split at h
      · next htrue =>
        subst htrue
        have htags : pair.1.tags = {} ∧ pair.2.tags = {} := by simpa [Header.hasTags] using huntagged
        exact List.forall_mem_cons.2 ⟨⟨sameHeader_eq_true hsame, htags⟩, ih h⟩
      · cases h

abbrev Matched (rho : String → String) : List Header → List Header → Prop :=
  List.Forall₂ fun kept moved =>
    (moved.Bound (fun a => .var (rho a)) kept ∧ kept.tags = {} ∧ moved.tags = {}) ∧ rho moved.dim = kept.dim

theorem Matched.dims {rho : String → String} {kept moved : List Header} (h : Matched rho kept moved) :
    (moved.map Header.dim).map rho = kept.map Header.dim := by
  induction h with
  | nil => rfl
  | cons hpair _ ih => rw [List.map_cons, List.map_cons, List.map_cons, hpair.2, ih]

theorem Matched.untagged {rho : String → String} {kept moved : List Header} (h : Matched rho kept moved) :
    (∀ x ∈ kept, x.tags = {}) ∧ ∀ x ∈ moved, x.tags = {} := by
  induction h with
  | nil => simp
  | cons hpair _ ih =>
    exact ⟨List.forall_mem_cons.2 ⟨hpair.1.2.1, ih.1⟩, List.forall_mem_cons.2 ⟨hpair.1.2.2, ih.2⟩⟩

theorem matched_of_checkMatched {t : Transformation} {kept moved : List Header}
    {pairs : List (String × String)} (hlength : kept.length = moved.length)
    (hnodup : (moved.map Header.dim).Nodup)
    (hpairs : pairs = (kept.zip moved).map fun pair => (pair.2.dim, pair.1.dim))
    (h : checkMatched t (fun a => .var (renameLoop pairs a)) (kept.zip moved) = .ok ()) :
    Matched (renameLoop pairs) kept moved ∧ ∀ a, a ∉ moved.map Header.dim → renameLoop pairs a = a := by
  rw [renameLoop_eq_apply]
  have hkeys : pairs.map Prod.fst = moved.map Header.dim := by
    have hsnd := congrArg (List.map Header.dim) (List.map_snd_zip (Nat.le_of_eq hlength.symm))
    rw [List.map_map] at hsnd
    rw [hpairs, List.map_map, ← hsnd]
    rfl
  refine ⟨List.forall₂_iff_zip.2 ⟨hlength, fun hpair => ⟨checkMatched_eq_ok h _ hpair, ?_⟩⟩, fun a ha => ?_⟩
  · rw [← hkeys] at hnodup
    exact Initial.Renaming.apply_of_mem hnodup (hpairs ▸ List.mem_map_of_mem hpair)
  · exact Initial.Renaming.apply_of_not_mem (hkeys ▸ ha)

theorem Matched.pointsBelow {p : Program} {rho : String → String} {kept moved : List Header}
    (h : Matched rho kept moved) {names : List String} (htidy : HeadersTidy names moved)
    (hinj : ∀ x ∈ scope names moved, ∀ y ∈ scope names moved, rho x = rho y → x = y) {n n' : Node}
    (hn : n.Tidy p (scope names moved))
    (hn' : ∀ e, n'.points e = n.points fun a => e (rho a)) {env env' : Valuation}
    (he : ∀ x ∈ names, env' x = env (rho x)) :
    Node.pointsBelow env kept n' = Node.pointsBelow env' moved n := by
  induction h generalizing names env env' with
  | nil =>
    rw [pointsBelow_nil, pointsBelow_nil, hn']
    exact points_congr n hn fun x hx => (he x hx).symm
  | @cons k m kept moved hpair _ ih =>
    obtain ⟨hbound, hdim⟩ := hpair
    simp only [pointsBelow_cons, hbound.1.values, Affine.value_var]
    have hsame (x : String) (hx : x ∈ names) : env (rho x) = env' x := (he x hx).symm
    rw [htidy.1.values_congr hsame]
    have hscope (y : String) (hy : y ∈ m.dim :: names) : y ∈ scope names (m :: moved) := by
      rw [scope, mem_scope]
      exact Or.inl hy
    refine List.flatMap_congr fun v _ => ih htidy.2 hinj hn fun x hx => ?_
    by_cases hxm : x = m.dim
    · rw [hxm, hdim, Function.update_self, Function.update_self]
    · have hne : rho x ≠ k.dim := fun heq =>
        hxm (hinj x (hscope x hx) m.dim (hscope _ List.mem_cons_self) (heq.trans hdim.symm))
      rw [Function.update_of_ne hxm, Function.update_of_ne hne]
      exact he x ((List.mem_cons.1 hx).resolve_left hxm)

section Move

variable {p : Program} {roots rest roots' : List Node} {rho : String → String}
  {outer kept moved : List Header} {n n' : Node}

structure Moves (roots rest roots' : List Node) (rho : String → String) (outer kept moved : List Header)
    (n n' : Node) : Prop where
  from_place : ∃ path, Occurs n roots path (outer ++ moved) ∧ rest = detach path roots
  removes : Removes n roots rest (outer ++ moved)
  to_place : ∃ x path, Occurs x rest path (outer ++ kept)
  inserts : Inserts n' rest roots' (outer ++ kept)
  matched : Matched rho kept moved
  kept_ne_nil : kept ≠ []
  fixes : ∀ a, a ∉ moved.map Header.dim → rho a = a
  substitute : n.substitute (fun a => .var (rho a)) = .ok n'

namespace Moves

theorem leaves_perm (h : Moves roots rest roots' rho outer kept moved n n') :
    ((leavesAll roots').map Leaf.computation).Perm ((leavesAll roots).map Leaf.computation) := by
  have hbefore := h.removes.leaves_perm.map Leaf.computation
  have hafter := h.inserts.removes.leaves_perm.map Leaf.computation
  rw [List.map_append, leaves_substitute n h.substitute, ← List.map_append] at hafter
  exact hafter.trans hbefore.symm

variable (hsound : Sound p roots) (h : Moves roots rest roots' rho outer kept moved n n')
include hsound h

theorem nodup_before : ((outer ++ moved).map Header.dim ++ n.dims).Nodup := by
  obtain ⟨path, ho, -⟩ := h.from_place
  exact hsound.dims.sublist ho.dims_sublist

theorem nodup_after : ((outer ++ kept).map Header.dim ++ n.dims).Nodup := by
  obtain ⟨x, path, ho⟩ := h.to_place
  obtain ⟨pruned, hperm⟩ := h.removes.dims_perm
  have hnodup := (hperm.nodup_iff.1 hsound.dims).sublist (List.sublist_append_left _ _)
  have hsub : ((outer ++ kept).map Header.dim).Sublist (dimsAll rest) :=
    (List.sublist_append_left _ _).trans ho.dims_sublist
  exact (List.perm_append_comm.nodup_iff).1 (hnodup.sublist (hsub.append_left _))

theorem fixes_outer : ∀ a ∈ outer.map Header.dim, rho a = a := by
  have hnodup := h.nodup_before hsound
  rw [List.map_append, List.append_assoc, List.nodup_append] at hnodup
  exact fun a ha => h.fixes a fun hmem => hnodup.2.2 a ha a (List.mem_append_left _ hmem) rfl

theorem rename_scope : ((outer ++ moved).map Header.dim).map rho = (outer ++ kept).map Header.dim := by
  rw [List.map_append, List.map_append, List.map_append, h.matched.dims]
  exact congrArg (· ++ _) ((List.map_congr_left (h.fixes_outer hsound)).trans (List.map_id _))

theorem injective : ∀ x ∈ scope [] (outer ++ moved), ∀ y ∈ scope [] (outer ++ moved), rho x = rho y → x = y := by
  have hnodup := (List.nodup_append.1 (h.nodup_after hsound)).1
  rw [← h.rename_scope hsound] at hnodup
  intro x hx y hy
  exact List.inj_on_of_nodup_map hnodup ((mem_scope.1 hx).resolve_left List.not_mem_nil)
    ((mem_scope.1 hy).resolve_left List.not_mem_nil)

theorem spares : ∀ w ∈ n.dims, Spares (fun a => .var (rho a)) w := by
  have hbefore := h.nodup_before hsound
  have hafter := h.nodup_after hsound
  intro w hw
  have hmoved : w ∉ (outer ++ moved).map Header.dim := fun hmem =>
    (List.nodup_append.1 hbefore).2.2 w hmem w hw rfl
  have hfix : rho w = w := h.fixes w fun hmem => hmoved (by
    rw [List.map_append]
    exact List.mem_append_right _ hmem)
  refine ⟨congrArg Affine.var hfix, fun a ha hmem => ?_⟩
  have heq : w = rho a := by simpa [Affine.var, Affine.atoms] using hmem
  by_cases ham : a ∈ moved.map Header.dim
  · have hkept : rho a ∈ kept.map Header.dim := h.matched.dims ▸ List.mem_map_of_mem ham
    refine (List.nodup_append.1 hafter).2.2 (rho a) ?_ w hw heq.symm
    rw [List.map_append]
    exact List.mem_append_right _ hkept
  · exact ha (h.fixes a ham ▸ heq.symm)

theorem points_branch (e : Valuation) : n'.points e = n.points fun a => e (rho a) := by
  simpa only [Affine.value_var] using points_substitute n h.substitute (h.spares hsound) e

theorem pointsBelow_eq (env : Valuation) :
    pointsBelow env (outer ++ kept) n' = pointsBelow env (outer ++ moved) n := by
  obtain ⟨path, ho, -⟩ := h.from_place
  rw [pointsBelow_append, pointsBelow_append]
  refine List.flatMap_congr fun e _ => ?_
  have htidy := (headersTidy_append.1 (ho.headersTidy hsound.tidy)).2
  have hnode := ho.tidy hsound.tidy
  have hinj := h.injective hsound
  rw [scope_append] at hnode hinj
  refine h.matched.pointsBelow htidy hinj hnode (h.points_branch hsound) fun a ha => ?_
  rw [h.fixes_outer hsound a ((mem_scope.1 ha).resolve_left List.not_mem_nil)]

theorem points_perm (env : Valuation) : (pointsAll env roots').Perm (pointsAll env roots) := by
  have hbefore := h.removes.points_perm env
  have hafter := h.inserts.removes.points_perm env
  rw [h.pointsBelow_eq hsound] at hafter
  exact hafter.trans hbefore.symm

theorem tidy : TidyAll p [] roots' := by
  obtain ⟨path, ho, -⟩ := h.from_place
  refine h.inserts.tidy (h.removes.tidy hsound.tidy) ?_
  refine tidy_substitute n h.substitute (ho.tidy hsound.tidy) (fun a ha => ?_) (h.spares hsound)
  refine Affine.over_var (mem_scope.2 (Or.inr ?_))
  rw [← h.rename_scope hsound]
  exact List.mem_map_of_mem ((mem_scope.1 ha).resolve_left List.not_mem_nil)

theorem conserves : Conserves p roots roots' where
  points := h.points_perm hsound
  leaves := h.leaves_perm
  sound := by
    refine ⟨h.tidy hsound, ?_, h.leaves_perm.nodup_iff.2 hsound.leaves⟩
    obtain ⟨pruned, hperm⟩ := h.removes.dims_perm
    rw [h.inserts.dims_perm.nodup_iff, dims_substitute n h.substitute]
    exact (hperm.nodup_iff.1 hsound.dims).sublist (List.sublist_append_left _ _)

end Moves

theorem leafPath_eq_ok {name : String} {computation : Nat} {path : Path}
    (h : leafPath roots name computation = .ok path) :
    ∃ l hs, l.computation = computation ∧ Occurs (.leaf l) roots path hs := by
  rw [leafPath, Outcome.require_eq_ok] at h
  exact occurs_of_leafPath? h

def branchAt? (roots : List Node) (dim : String) (computation : Nat) : Option Node := do
  let loopPath ← loopPath? roots dim
  let leafPath ← leafPath? roots computation
  at? roots (leafPath.take (loopPath.length + 1))

structure Fuses (p : Program) (roots rest roots' : List Node) (first second dim : String) (rho : String → String)
    (outer kept moved : List Header) (n n' : Node) : Prop where
  moves : Moves roots rest roots' rho outer kept moved n n'
  behind : ∃ a x path, p.computationPosition? first = some a ∧ a ∈ x.leaves.map Leaf.computation ∧
    Occurs x rest path (outer ++ kept) ∧ roots' = insertBehind n' path rest
  branch : ∃ b, p.computationPosition? second = some b ∧ b ∈ n.leaves.map Leaf.computation ∧
    branchAt? roots dim b = some n
  innermost : ∃ hs hd, outer ++ kept = hs ++ [hd] ∧ hd.dim = dim

theorem moves_of_moveBranch (hsound : Sound p roots) {name : String} {l : Leaf} {path branchPath : Path}
    {level : Nat} {above : List Header} (ho : Occurs (.leaf l) roots path above)
    (hbranch : Occurs n roots branchPath (outer ++ moved)) (hlevel : level + 1 ≤ above.length)
    (habove : above.take (level + 1) = outer ++ kept) (hmatched : Matched rho kept moved) (hne : kept ≠ [])
    (hfix : ∀ a, a ∉ moved.map Header.dim → rho a = a)
    (h : moveBranch roots (fun a => .var (rho a)) name l.computation branchPath level = .ok roots') :
    ∃ rest n' x path', Moves roots rest roots' rho outer kept moved n n' ∧
      l.computation ∈ x.leaves.map Leaf.computation ∧ Occurs x rest path' (outer ++ kept) ∧
      roots' = insertBehind n' path' rest := by
  rw [moveBranch, hbranch.at?_eq] at h
  simp only [bind_eq_ok, lift_eq_ok] at h
  obtain ⟨n', hsub, path', hpath', h⟩ := h
  cases h
  obtain ⟨l', above', hl', ho'⟩ := leafPath_eq_ok hpath'
  have hsame := hsound.stack_unique (hbranch.removes.leafStacks_subset ho'.mem_leafStacks) ho.mem_leafStacks hl'
  obtain rfl : above' = above := congrArg Prod.fst hsame
  obtain ⟨x, hx, hleaves⟩ := ho'.take hlevel
  rw [habove] at hx
  have hmoves : Moves roots (detach branchPath roots) (insertBehind n' (path'.take (level + 1 + 1))
      (detach branchPath roots)) rho outer kept moved n n' :=
    ⟨⟨_, hbranch, rfl⟩, hbranch.removes, ⟨x, _, hx⟩, hx.inserts n', hmatched, hne, hfix, hsub⟩
  refine ⟨_, n', x, _, hmoves, ?_, hx, rfl⟩
  rw [← hl']
  exact List.mem_map_of_mem (hleaves List.mem_cons_self)

end Move

section Fusion

variable {p : Program} {roots roots' : List Node} (hsound : Sound p roots)
include hsound

theorem moves_of_fuseAt {t : Transformation} {first : String} {la lb : Leaf} {aPath bPath : Path}
    {ha hb : List Header} (hoa : Occurs (.leaf la) roots aPath ha) (hob : Occurs (.leaf lb) roots bPath hb)
    {level depth : Nat} (hla : level + 1 ≤ ha.length) (hlb : level + 1 ≤ hb.length)
    (hparts : partsAt level aPath bPath = some depth) {kept moved : List Header}
    (hkept : kept = (ha.take (level + 1)).drop depth) (hmoved : moved = (hb.take (level + 1)).drop depth)
    {pairs : List (String × String)} (hpairs : pairs = (kept.zip moved).map fun pair => (pair.2.dim, pair.1.dim))
    (hcheck : checkMatched t (fun a => .var (renameLoop pairs a)) (kept.zip moved) = .ok ())
    (h : moveBranch roots (fun a => .var (renameLoop pairs a)) first la.computation (bPath.take (level + 2))
      level = .ok roots') :
    ∃ rest rho outer kept moved n n' x path, Moves roots rest roots' rho outer kept moved n n' ∧
      (la.computation ∈ x.leaves.map Leaf.computation ∧ Occurs x rest path (outer ++ kept) ∧
        roots' = insertBehind n' path rest) ∧
      (Occurs n roots (bPath.take (level + 2)) (outer ++ moved) ∧ lb ∈ n.leaves) ∧
      outer ++ kept = ha.take (level + 1) := by
  have hlengthA := hoa.length_path
  have hlengthB := hob.length_path
  obtain ⟨hdepth, htake⟩ := partsAt_eq_some hparts
  have hcommon := hoa.take_eq hob htake (by omega) (by omega)
  have houter : depth ≤ level + 1 := by omega
  -- the loops down to `depth` are shared; what is below is kept on the one side and moved on the other
  have habove : ha.take (level + 1) = ha.take depth ++ kept := by
    rw [hkept]
    exact take_eq_append_drop ha houter
  have hbelow : hb.take (level + 1) = ha.take depth ++ moved := by
    rw [hmoved, hcommon]
    exact take_eq_append_drop hb houter
  obtain ⟨n, hn, hleaves⟩ := hob.take hlb
  rw [hbelow] at hn
  have hnodup := hsound.dims.sublist hn.dims_sublist
  rw [List.map_append, List.append_assoc, List.nodup_append, List.nodup_append] at hnodup
  have hlength : kept.length = moved.length := by
    rw [hkept, hmoved, List.length_drop, List.length_drop, List.length_take, List.length_take,
      Nat.min_eq_left hla, Nat.min_eq_left hlb]
  obtain ⟨hmatched, hfix⟩ := matched_of_checkMatched hlength hnodup.2.1.1 hpairs hcheck
  have hne : kept ≠ [] := by
    apply List.ne_nil_of_length_pos
    rw [hkept, List.length_drop, List.length_take, Nat.min_eq_left hla]
    omega
  obtain ⟨rest, n', x, path, hmoves, hbehind⟩ := moves_of_moveBranch hsound hoa hn hla habove hmatched hne hfix h
  exact ⟨rest, _, _, kept, moved, n, n', x, path, hmoves, hbehind, ⟨hn, hleaves List.mem_cons_self⟩, habove.symm⟩

theorem fuses_of_fuse {first second dim : String} (h : fuse p roots first second dim = .ok roots') :
    ∃ rest rho outer kept moved n n', Fuses p roots rest roots' first second dim rho outer kept moved n n' := by
  obtain ⟨a, hfirst, h⟩ := bind_eq_ok.1 h
  obtain ⟨b, hsecond, h⟩ := bind_eq_ok.1 h
  rw [Outcome.require_eq_ok] at hfirst hsecond
  split at h
  · cases h
  · obtain ⟨aPath, haPath, h⟩ := bind_eq_ok.1 h
    obtain ⟨bPath, hbPath, h⟩ := bind_eq_ok.1 h
    obtain ⟨dimPath, hd, body, hs, hdim, ho, h⟩ := namedLoop_bind_eq_ok h
    simp only at h
    split at h
    · cases h
    · next hencloses =>
      split at h
      · cases h
      · next hdeep =>
        split at h
        · cases h
        · next depth hparts =>
          obtain ⟨⟨⟩, hcheck, h⟩ := bind_eq_ok.1 h
          obtain ⟨la, ha, rfl, hoa⟩ := leafPath_eq_ok haPath
          obtain ⟨lb, hb, hlb, hob⟩ := leafPath_eq_ok hbPath
          have hlengthA := hoa.length_path
          have hlengthB := hob.length_path
          have hlengthDim := ho.length_path
          simp only [Bool.not_eq_true, Bool.not_eq_false', Bool.and_eq_true, decide_eq_true_eq] at hencloses
          rw [hoa.above_eq, hob.above_eq] at hcheck h
          -- the guards passed give what fusion at the level asks for
          obtain ⟨rest, rho, outer, kept, moved, n, n', x, path, hmoves, ⟨hx, hbehind⟩, ⟨hn, hmem⟩, houter⟩ :=
            moves_of_fuseAt hsound hoa hob (by omega) (by omega) hparts rfl rfl rfl hcheck h
          refine ⟨rest, rho, outer, kept, moved, n, n', hmoves, ⟨_, x, path, hfirst, hx, hbehind⟩,
            ⟨b, hsecond, hlb ▸ List.mem_map_of_mem hmem, ?_⟩, hs, hd, ?_, hdim⟩
          · rw [leafPath, Outcome.require_eq_ok] at hbPath
            have hlevel : dimPath.length - 1 + 2 = dimPath.length + 1 := by omega
            rw [hlevel] at hn
            simp only [branchAt?, ← hdim, ho.loopPath?_eq hsound.dims, hbPath, Option.bind_eq_bind, Option.bind_some,
              hn.at?_eq]
          · have hlevel : dimPath.length - 1 + 1 = hs.length + 1 := by omega
            rw [houter, hlevel]
            exact ho.take_above hoa (List.isPrefixOf_iff_prefix.1 hencloses.2) hencloses.1

theorem conserves_fuse {first second dim : String} (h : fuse p roots first second dim = .ok roots') :
    Conserves p roots roots' := by
  obtain ⟨rest, rho, outer, kept, moved, n, n', hfuses⟩ := fuses_of_fuse hsound h
  exact hfuses.moves.conserves hsound

end Fusion

end LoopNest
