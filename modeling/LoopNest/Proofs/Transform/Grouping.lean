import LoopNest.Proofs.Kernel.Grouping
import LoopNest.Proofs.Transform.Split
import LoopNest.Transform.Effect

namespace LoopNest

open Node

namespace FixedRange

def tileEnv (s : FixedRange) (factor depth : Nat) : Env → Env
  | [] => []
  | v :: env =>
    if env.length = depth then (v - s.lower) % factor :: (v - s.lower) / factor :: env
    else v :: s.tileEnv factor depth env

def tileActivation (s : FixedRange) (factor depth number below : Nat) (a : Activation) : Activation :=
  if a.1 ≤ number then a
  else if a.1 ≤ number + below then (a.1 + 1, s.tileEnv factor depth a.2)
  else (a.1 + 1, a.2)

variable {s : FixedRange} {factor depth number below : Nat}

theorem tileEnv_append {around : Env} (hdepth : around.length = depth) (inside : Env) (v : Int) :
    s.tileEnv factor depth (inside ++ v :: around) =
      inside ++ (v - s.lower) % factor :: (v - s.lower) / factor :: around := by
  induction inside with
  | nil => rw [List.nil_append, tileEnv, if_pos hdepth, List.nil_append]
  | cons w inside ih =>
    have hlength : (inside ++ v :: around).length ≠ depth := by
      rw [List.length_append, List.length_cons]
      omega
    rw [List.cons_append, tileEnv, if_neg hlength, ih, List.cons_append]

theorem length_tileEnv (env : Env) :
    (s.tileEnv factor depth env).length = if depth < env.length then env.length + 1 else env.length := by
  induction env with
  | nil => rfl
  | cons v env ih =>
    rw [tileEnv]
    split
    · next h => simp [h]
    · next h =>
      rw [List.length_cons, ih, List.length_cons]
      split <;> split <;> omega

theorem tileEnv_eq_nil {env : Env} : s.tileEnv factor depth env = [] ↔ env = [] := by
  rw [← List.length_eq_zero_iff, length_tileEnv, ← List.length_eq_zero_iff]
  split <;> omega

theorem tileEnv_injective (s : FixedRange) (factor depth : Nat) : Function.Injective (s.tileEnv factor depth) := by
  intro env
  induction env with
  | nil =>
    intro env h
    exact (tileEnv_eq_nil.1 h.symm).symm
  | cons v env ih =>
    rintro (_ | ⟨v', env'⟩) h
    · exact tileEnv_eq_nil.1 h
    · have hlength := congrArg List.length h
      rw [length_tileEnv, length_tileEnv, List.length_cons, List.length_cons] at hlength
      -- the lengths agree, so both values stand at the same depth
      have hsame : env.length = env'.length := by split at hlength <;> split at hlength <;> omega
      rw [tileEnv, tileEnv, hsame] at h
      split at h
      · simp only [List.cons.injEq] at h
        -- tile and place in the tile give back the value
        obtain ⟨hmod, hdiv, rfl⟩ := h
        have hv := Int.mul_ediv_add_emod (v - s.lower) factor
        have hv' := Int.mul_ediv_add_emod (v' - s.lower) factor
        rw [hmod, hdiv, hv'] at hv
        rw [show v = v' by omega]
      · obtain ⟨rfl, htail⟩ := List.cons.inj h
        rw [ih htail]

theorem tileActivation_injective (s : FixedRange) (factor depth number below : Nat) :
    Function.Injective (s.tileActivation factor depth number below) := by
  rintro ⟨m, env⟩ ⟨m', env'⟩ h
  obtain rfl : m = m' := by
    have hnumber := congrArg Prod.fst h
    simp only [tileActivation] at hnumber
    split_ifs at hnumber <;> simp only at hnumber <;> omega
  have henv := congrArg Prod.snd h
  simp only [tileActivation] at henv
  split_ifs at henv
  · exact congrArg _ henv
  · exact congrArg _ (s.tileEnv_injective factor depth henv)
  · exact congrArg _ henv

theorem renames_tileActivation (s : FixedRange) (factor depth number below : Nat) :
    Renames number (below + 1) 1 (Iteration.move (s.tileActivation factor depth number below)) where
  before i hi := Iteration.move_eq (if_pos (Nat.le_of_lt hi)) i.dim i.value
  behind i hi := Iteration.move_eq ((if_neg (by simp only; omega)).trans (if_neg (by simp only; omega))) i.dim i.value

end FixedRange

theorem Tiling.iterations_eq {p : Program} {names taken : List String} {hd : Header} {body : List Node} {s : FixedRange}
    {factor : Nat} {tags : Tags} {outer inner : String} {value : Affine} {clamp : Option Affine} {body' : List Node}
    (h : Tiling p names taken hd body s factor outer inner value clamp body') (huntagged : hd.isConcurrent = false)
    (htags : (innerHeader factor inner clamp tags).isConcurrent = false) (env : Valuation) {around : Env}
    {outside : List Iteration} {number : Nat} {f : Iteration → Iteration}
    (hf : f = Iteration.move (s.tileActivation factor around.length number (dimsAll body).length))
    (houtside : outside.map f = outside) :
    (Node.loop (outerHeader hd s factor outer) [.loop (innerHeader factor inner clamp tags) body']).iterations
        env around number outside =
      ((Node.loop hd body).iterations env around number outside).map (List.map f) := by
  have houter : (outerHeader hd s factor outer).isConcurrent = false := huntagged
  simp only [Node.iterations, iterationsAll, List.append_nil, Header.inside, houter, htags, huntagged,
    Bool.false_eq_true, if_false, List.map_flatMap]
  refine h.flatMap_values env fun o i hi hlt => ?_
  -- the body reads the value that the two loops make up
  have hbelow (next : Nat) (env' : Env) :
      iterationsAll (Function.update (Function.update env outer o) inner i) env' next outside body' =
        iterationsAll (Function.update env hd.dim (factor * o + s.lower + i)) env' next outside body := by
    rw [iterationsAll_substituteAll body h.body_eq h.spares]
    exact iterationsAll_congr body h.tidy (h.value_eq_update env o i) _ _ _
  have hsub : factor * o + s.lower + i - s.lower = i + factor * o := by omega
  have hmod : (factor * o + s.lower + i - s.lower) % factor = i := by
    rw [hsub, Int.add_mul_emod_self_left, Int.emod_eq_of_lt hi hlt]
  have hdiv : (factor * o + s.lower + i - s.lower) / factor = o := by
    rw [hsub, Int.add_mul_ediv_left _ _ (by omega), Int.ediv_eq_zero_of_lt hi hlt, Int.zero_add]
  have hbody : ∀ k < (dimsAll body).length, ∀ dim inside v,
      f ⟨number + 1 + k, dim, inside ++ (factor * o + s.lower + i) :: around, v⟩ =
        ⟨number + 2 + k, dim, inside ++ i :: o :: around, v⟩ := by
    intro k hk dim inside v
    rw [hf]
    refine Iteration.move_eq ?_ dim v
    rw [FixedRange.tileActivation, if_neg (by simp only; omega), if_pos (by simp only; omega),
      FixedRange.tileEnv_append rfl, hmod, hdiv]
    simp only [Prod.mk.injEq, and_true]
    omega
  have hmap := iterationsAll_map body hbody (Function.update env hd.dim (factor * o + s.lower + i)) outside
  rw [houtside] at hmap
  exact (hbelow _ _).trans hmap

section Effect

variable {p : Program} {roots roots' : List Node} {hd : Header} {body : List Node} {path : Path} {hs : List Header}
  {factor : Nat} {tags : Tags} (hsound : Sound p roots)

include hsound

theorem points_divides (h : Divides roots roots' factor tags hd body path hs) (env : Valuation) :
    pointsAll env roots' = pointsAll env roots := by
  rcases h.effect with ⟨rfl, -⟩ | ⟨s, hsplits⟩
  · exact (h.occurs.replaces fun _ => .loop { hd with tags } body).points_eq env fun e => rfl
  · obtain ⟨outer, inner, value, clamp, body', ht, hr⟩ := exists_tiling hsound h.occurs h.large hsplits
    exact hr.points_eq env ht.points_eq

theorem iterations_divides (h : Divides roots roots' factor tags hd body path hs) (hparallel : tags.parallel = false)
    (hvectorize : tags.vectorize = none) : ∃ f : Activation → Activation, Function.Injective f ∧
      iterationsAll outermost [] 0 [] roots' =
        (iterationsAll outermost [] 0 [] roots).map (List.map (Iteration.move f)) := by
  have huntagged : hd.isConcurrent = false := by rw [Header.isConcurrent, h.untagged]; rfl
  rcases h.effect with ⟨rfl, -⟩ | ⟨s, hsplits⟩
  · have htags : ({ hd with tags } : Header).isConcurrent = false := by
      simp only [Header.isConcurrent, hparallel, hvectorize]
      rfl
    have hr := h.occurs.replaces fun _ => .loop { hd with tags } body
    have hdims : (Node.loop { hd with tags } body).dims.length = (Node.loop hd body).dims.length + 0 := rfl
    obtain ⟨number, -, -, -, hiterations⟩ := hr.iterations_map hdims 0
    -- a tag that is not for concurrency renames nothing
    refine ⟨id, Function.injective_id, hiterations _ ⟨fun i _ => rfl, fun i _ => rfl⟩ 0 ?_ _ [] [] rfl rfl⟩
    intro env around outside _ _
    simp only [List.map_id_fun, List.map_id_fun', id_eq, iterations, Header.inside, huntagged, htags]
    rfl
  · obtain ⟨outer, inner, value, clamp, body', ht, hr⟩ := exists_tiling hsound h.occurs h.large hsplits
    have htags : (innerHeader factor inner clamp tags).isConcurrent = false := by
      simp only [Header.isConcurrent, innerHeader, hparallel, hvectorize]
      rfl
    have hshift : (Node.loop (outerHeader hd s factor outer)
        [.loop (innerHeader factor inner clamp tags) body']).dims.length = (Node.loop hd body).dims.length + 1 := by
      simp [dims, dimsAll, dimsAll_substituteAll body ht.body_eq]
    obtain ⟨number, -, -, -, hiterations⟩ := hr.iterations_map hshift 0
    -- inside the tiled loop the renaming takes the value apart, outside it moves numbers only
    have hrenames := s.renames_tileActivation factor hs.length number (dimsAll body).length
    refine ⟨_, s.tileActivation_injective factor hs.length number (dimsAll body).length,
      hiterations _ hrenames 0 ?_ _ [] [] rfl rfl⟩
    intro env around outside hdepth houtside
    rw [Nat.zero_add] at hdepth
    exact ht.iterations_eq huntagged htags env (by rw [hdepth]) houtside

omit hsound in
theorem points_parallelizes (h : Parallelizes roots roots' hd body path hs) (env : Valuation) :
    pointsAll env roots' = pointsAll env roots := by
  rw [h.result]
  exact (h.occurs.replaces_header _).points_eq env fun e => rfl

variable {dim : String}

theorem iterations_stripMining {t : Transformation} (h : t.applyTo p roots = .ok roots')
    (ht : t = .tile dim factor ∨ t = .unroll dim factor) (env : Valuation) :
    pointsAll env roots' = pointsAll env roots ∧ ∃ f : Activation → Activation, Function.Injective f ∧
      iterationsAll outermost [] 0 [] roots' =
        (iterationsAll outermost [] 0 [] roots).map (List.map (Iteration.move f)) := by
  rcases ht with rfl | rfl
  · obtain ⟨hd, body, path, hs, hdivides⟩ := divides_of_tile h
    exact ⟨points_divides hsound hdivides env, iterations_divides hsound hdivides rfl rfl⟩
  · obtain ⟨hd, body, path, hs, hdivides⟩ := divides_of_unroll h
    exact ⟨points_divides hsound hdivides env, iterations_divides hsound hdivides rfl rfl⟩

theorem points_concurrent {t : Transformation} (h : t.applyTo p roots = .ok roots')
    (ht : t = .parallelize dim ∨ t = .vectorize dim factor) (env : Valuation) :
    pointsAll env roots' = pointsAll env roots := by
  rcases ht with rfl | rfl
  · obtain ⟨hd, body, path, hs, hparallel⟩ := parallelizes_of_parallelize h
    exact points_parallelizes hparallel env
  · obtain ⟨hd, body, path, hs, hdivides, -⟩ := divides_of_vectorize h
    exact points_divides hsound hdivides env

end Effect

end LoopNest
