import LoopNest.Proofs.Transform.Fuse
import LoopNest.Proofs.Transform.Interchange
import LoopNest.Proofs.Transform.Split
import LoopNest.Transform.Effect

/-!
Trees that transformations lead to, whether or not they are legal. Each of them runs the instances of the
initial tree.
-/

namespace LoopNest

open Node

/-- The trees that some sequence of transformations makes of the initial one. -/
inductive Reshaped (p : Program) : List Node → Prop
  | initial {roots : List Node} (h : p.nesting = .ok roots) : Reshaped p roots
  | step {roots roots' : List Node} (t : Transformation) (hr : Reshaped p roots)
      (h : t.applyTo p roots = .ok roots') : Reshaped p roots'

inductive Given (factor : Nat) (body : List Node) : Tags → Prop
  | nothing : Given factor body {}
  | unroll : Given factor body { unroll := some factor }
  | vectorize (hbody : onlyLeaves body = true) : Given factor body { vectorize := some factor }

inductive Change (roots roots' : List Node) : Prop
  | divides {factor : Nat} {tags : Tags} {hd : Header} {body : List Node} {path : Path} {hs : List Header}
    (h : Divides roots roots' factor tags hd body path hs) (given : Given factor body tags)
  | parallelizes {hd : Header} {body : List Node} {path : Path} {hs : List Header}
    (h : Parallelizes roots roots' hd body path hs)
  | swaps {outer inner : Header} {mids : List Header} {body : List Node} {path rest : Path} {hs : List Header}
    (h : Swaps roots roots' outer inner mids body path rest hs)
  | moves {rest : List Node} {rho : String → String} {outer kept moved : List Header} {n n' : Node}
    (h : Moves roots rest roots' rho outer kept moved n n')

theorem change_of_applyTo {p : Program} {roots roots' : List Node} (hsound : Sound p roots) {t : Transformation}
    (h : t.applyTo p roots = .ok roots') : Change roots roots' := by
  cases t with
  | tile dim factor =>
    obtain ⟨hd, body, path, hs, hdivides⟩ := divides_of_tile h
    exact .divides hdivides .nothing
  | interchange first second =>
    obtain ⟨outer, inner, mids, body, path, rest, hs, hswaps, -⟩ := swaps_of_interchange hsound h
    exact .swaps hswaps
  | fuse first second dim =>
    obtain ⟨rest, rho, outer, kept, moved, n, n', hfuses⟩ := fuses_of_fuse hsound h
    exact .moves hfuses.moves
  | unroll dim factor =>
    obtain ⟨hd, body, path, hs, hdivides⟩ := divides_of_unroll h
    exact .divides hdivides .unroll
  | parallelize dim =>
    obtain ⟨hd, body, path, hs, hparallel⟩ := parallelizes_of_parallelize h
    exact .parallelizes hparallel
  | vectorize dim factor =>
    obtain ⟨hd, body, path, hs, hdivides, honly⟩ := divides_of_vectorize h
    exact .divides hdivides (.vectorize honly)

theorem conserves_applyTo {p : Program} {roots roots' : List Node} (hsound : Sound p roots)
    {t : Transformation} (h : t.applyTo p roots = .ok roots') : Conserves p roots roots' := by
  cases t with
  | tile dim factor => exact conserves_tile hsound h
  | interchange first second => exact conserves_interchange hsound h
  | fuse first second dim => exact conserves_fuse hsound h
  | unroll dim factor => exact conserves_unroll hsound h
  | parallelize dim => exact conserves_parallelize hsound h
  | vectorize dim factor => exact conserves_vectorize hsound h

theorem Reshaped.sound {p : Program} (hp : p.WellFormed) {roots : List Node} (h : Reshaped p roots) :
    Sound p roots := by
  induction h with
  | initial h => exact (sound_of_nesting hp h).1
  | step t _ h ih => exact (conserves_applyTo ih h).sound

theorem Reshaped.points_perm {p : Program} (hp : p.WellFormed) {roots : List Node} (h : Reshaped p roots) :
    ∃ initial, p.nesting = .ok initial ∧ ∀ env, (pointsAll env roots).Perm (pointsAll env initial) := by
  induction h with
  | initial h => exact ⟨_, h, fun env => List.Perm.refl _⟩
  | step t hr h ih =>
    obtain ⟨initial, hn, hperm⟩ := ih
    exact ⟨initial, hn, fun env => ((conserves_applyTo (hr.sound hp) h).points env).trans (hperm env)⟩

end LoopNest
