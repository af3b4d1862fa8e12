import LoopNest.Proofs.Tree.Lookup

namespace LoopNest

open Node

structure Conserves (p : Program) (roots roots' : List Node) : Prop where
  sound : Sound p roots'
  leaves : ((leavesAll roots').map Leaf.computation).Perm ((leavesAll roots).map Leaf.computation)
  points : ∀ env, (pointsAll env roots').Perm (pointsAll env roots)

theorem conserves_of_replaces {p : Program} {roots roots' : List Node} (hs : Sound p roots) {n n' : Node}
    {headers : List Header} (hr : Replaces n n' roots roots' headers)
    (hpoints : ∀ env, (n'.points env).Perm (n.points env))
    (htidy : n.Tidy p (scope [] headers) → n'.Tidy p (scope [] headers))
    (hleaves : n'.leaves.map Leaf.computation = n.leaves.map Leaf.computation) {fresh : List String}
    (hfresh : (fresh ++ dimsAll roots).Nodup) (hdims : n'.dims.Subperm (fresh ++ n.dims)) :
    Conserves p roots roots' := by
  have hsame : (leavesAll roots').map Leaf.computation = (leavesAll roots).map Leaf.computation := by
    obtain ⟨pre, post, hleavesAll, hleavesAll'⟩ := hr.leaves_eq
    rw [hleavesAll, hleavesAll']
    simp only [List.map_append, hleaves]
  refine ⟨⟨hr.tidy hs.tidy htidy, hr.nodup_dims hfresh hdims, ?_⟩, ?_, fun env => hr.points_perm env hpoints⟩
  · rw [hsame]
    exact hs.leaves
  · rw [hsame]

theorem conserves_of_header {p : Program} {roots roots' : List Node} (hs : Sound p roots) {h h' : Header}
    {body : List Node} {headers : List Header}
    (hr : Replaces (.loop h body) (.loop h' body) roots roots' headers) (hdim : h'.dim = h.dim)
    (hlimits : h'.limits = h.limits) (hvalues : ∀ env, h'.values env = h.values env) :
    Conserves p roots roots' := by
  have hnothing : ([] ++ dimsAll roots).Nodup := hs.dims
  refine conserves_of_replaces hs hr (fun env => ?_) (fun ht => ?_) rfl hnothing ?_
  · rw [points, points, hdim, hvalues]
  · refine ⟨⟨?_, ?_⟩, hdim ▸ ht.2⟩
    · rw [hlimits]
      exact ht.1.inScope
    · rw [hlimits]
      exact ht.1.canonical
  · rw [dims, dims, hdim]
    exact List.Subperm.refl _

end LoopNest
