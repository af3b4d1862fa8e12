import LoopNest.Proofs.Search.Fuel
import LoopNest.Proofs.Search.Bookkeeping

/-!
The searches as loops without a bound on their rounds. What a loop ends in is what the bounded search computes;
that it ends at all is another matter.
-/

namespace LoopNest

inductive Turn (σ α : Type) where
  | again (x : σ)
  | leave (a : α)

def Turn.followedBy {σ α : Type} (rest : σ → Checked α) : Turn σ α → Checked α
  | again x => rest x
  | leave a => .ok a

structure Loop (α : Type) where
  Stage : Type
  start : Stage
  round : Stage → Checked (Turn Stage α)

namespace Loop

variable {α : Type} {l : Loop α}

inductive Ends (l : Loop α) : Nat → l.Stage → Checked α → Prop where
  | leave {x : l.Stage} {a : α} : l.round x = .ok (.leave a) → Ends l 1 x (.ok a)
  | fault {x : l.Stage} {f : Fault} : l.round x = .error f → Ends l 1 x (.error f)
  | again {x y : l.Stage} {k : Nat} {r : Checked α} : l.round x = .ok (.again y) → Ends l k y r → Ends l (k + 1) x r

inductive Passes (l : Loop α) : l.Stage → Prop where
  | start : Passes l l.start
  | next {x y : l.Stage} : Passes l x → l.round x = .ok (.again y) → Passes l y

theorem exists_ends (inv : l.Stage → Prop) (measure : l.Stage → Nat)
    (hround : ∀ x y, inv x → l.round x = .ok (.again y) → inv y ∧ measure y < measure x) (x : l.Stage) (hx : inv x) :
    ∃ k ≤ measure x + 1, ∃ r, l.Ends k x r := by
  induction hm : measure x using Nat.strongRecOn generalizing x with
  | ind m ih =>
    cases hturn : l.round x with
    | error f => exact ⟨1, by omega, _, .fault hturn⟩
    | ok turn =>
      cases turn with
      | leave a => exact ⟨1, by omega, _, .leave hturn⟩
      | again y =>
        obtain ⟨hy, hless⟩ := hround x y hx hturn
        obtain ⟨k, hk, r, hends⟩ := ih (measure y) (by omega) y hy rfl
        exact ⟨k + 1, by omega, r, .again hturn hends⟩

theorem Ends.eq (result : l.Stage → Checked α) (hround : ∀ x, result x = l.round x >>= Turn.followedBy result)
    {k : Nat} {x : l.Stage} {r : Checked α} (h : l.Ends k x r) : result x = r := by
  induction h with
  | leave hturn =>
    rw [hround, hturn]
    rfl
  | fault hturn =>
    rw [hround, hturn]
    rfl
  | again hturn _ ih =>
    rw [hround, hturn]
    exact ih

end Loop

namespace Search

variable {c : Context} {cfg : SearchParameters} {e : Evaluator} {draws : Draws}

section DepthFirst

def depthFirstRound (c : Context) (cfg : SearchParameters) (e : Evaluator) :
    State × List Nest → Checked (Turn (State × List Nest) State)
  | (s, []) => .ok (.leave s)
  | (s, n :: stack) => do
    if s.isSpent cfg then return .leave s
    else
      let (s, children) ← scoreNeighbors c cfg e s n
      return .again (s, children ++ stack)

def descendEach (c : Context) (cfg : SearchParameters) (e : Evaluator) (x : State × List Nest) : Checked State :=
  x.2.foldlM (fun s n => descend c cfg e (cfg.maxDepth - n.depth) s n) x.1

theorem descendEach_cons (s : State) (n : Nest) (stack : List Nest) : descendEach c cfg e (s, n :: stack) =
    descend c cfg e (cfg.maxDepth - n.depth) s n >>= fun s => descendEach c cfg e (s, stack) := List.foldlM_cons

theorem descendEach_append (s : State) (ns stack : List Nest) : descendEach c cfg e (s, ns ++ stack) =
    descendEach c cfg e (s, ns) >>= fun s => descendEach c cfg e (s, stack) := List.foldlM_append

theorem descend_of_isSpent {s : State} (h : s.isSpent cfg) (remaining : Nat) (n : Nest) :
    descend c cfg e remaining s n = .ok s := by
  cases remaining with
  | zero => rw [descend]
  | succ remaining => rw [descend_succ, if_pos h]

theorem descendEach_of_isSpent {s : State} (h : s.isSpent cfg) (stack : List Nest) :
    descendEach c cfg e (s, stack) = .ok s := by
  induction stack with
  | nil => rfl
  | cons n stack ih => rw [descendEach_cons, descend_of_isSpent h, ok_bind, ih]

theorem descendAll_eq {remaining : Nat} {s : State} {ns : List Nest}
    (hns : ∀ n ∈ ns, cfg.maxDepth - n.depth = remaining) :
    descendAll c cfg e remaining s ns = descendEach c cfg e (s, ns) := by
  induction ns generalizing s with
  | nil =>
    rw [descendAll]
    rfl
  | cons n ns ih =>
    rw [descendAll, descendEach_cons, hns n List.mem_cons_self]
    apply bind_congr_ok
    intro s' _
    exact ih fun m hm => hns m (List.mem_cons_of_mem _ hm)

theorem descend_eq {s : State} {n : Nest} (hgo : ¬ s.isSpent cfg) :
    descend c cfg e (cfg.maxDepth - n.depth) s n =
      scoreNeighbors c cfg e s n >>= fun r => descendEach c cfg e (r.1, r.2) := by
  cases hremaining : cfg.maxDepth - n.depth with
  | zero =>
    rw [descend, scoreNeighbors_deep (by omega), ok_bind]
    rfl
  | succ remaining =>
    rw [descend_succ, if_neg hgo]
    apply bind_congr_ok
    rintro ⟨s', children⟩ hchildren
    apply descendAll_eq
    intro m hm
    rw [depth_of_scoreNeighbors hchildren m hm]
    omega

theorem descendEach_round (x : State × List Nest) :
    descendEach c cfg e x = depthFirstRound c cfg e x >>= Turn.followedBy (descendEach c cfg e) := by
  rcases x with ⟨s, _ | ⟨n, stack⟩⟩
  · rfl
  · rw [depthFirstRound]
    by_cases hspent : s.isSpent cfg
    · rw [descendEach_of_isSpent hspent, if_pos hspent]
      rfl
    · rw [descendEach_cons, descend_eq hspent, if_neg hspent, bind_assoc, bind_assoc]
      apply bind_congr_ok
      rintro ⟨s', children⟩ _
      exact (descendEach_append s' children stack).symm

end DepthFirst

section HillClimbing

def climbRound (c : Context) (cfg : SearchParameters) (e : Evaluator) :
    State × Nest → Checked (Turn (State × Nest) State)
  | (s, current) => do
    if s.isSpent cfg then return .leave s
    else
      let (s, neighbors) ← scoreNeighbors c cfg e s current
      match Nest.least? neighbors with
      | none => return .leave s
      | some next =>
        if next.costOrInfinity ≥ current.costOrInfinity then return .leave s
        else return .again (s, next)

theorem depth_of_climbRound {x y : State × Nest} (h : climbRound c cfg e x = .ok (.again y)) :
    x.2.depth < cfg.maxDepth ∧ y.2.depth = x.2.depth + 1 := by
  rcases x with ⟨s, current⟩
  rw [climbRound] at h
  split at h
  · cases h
  · obtain ⟨⟨s', neighbors⟩, hneighbors, h⟩ := bind_eq_ok.1 h
    dsimp only at h
    split at h
    · cases h
    · next next hleast =>
      have hnext := (Nest.firstLeast_of_least? hleast).mem
      split at h
      · cases h
      · cases h
        refine ⟨?_, depth_of_scoreNeighbors hneighbors next hnext⟩
        by_contra hdeep
        rw [scoreNeighbors_deep (Nat.not_lt.1 hdeep)] at hneighbors
        cases hneighbors
        cases hnext

def climbOn (c : Context) (cfg : SearchParameters) (e : Evaluator) (x : State × Nest) : Checked State :=
  climb c cfg e (cfg.maxDepth - x.2.depth) x.1 x.2

theorem climbOn_eq {x : State × Nest} {remaining : Nat} (h : cfg.maxDepth ≤ x.2.depth + remaining) :
    climb c cfg e remaining x.1 x.2 = climbOn c cfg e x := by
  obtain ⟨more, rfl⟩ : ∃ more, remaining = cfg.maxDepth - x.2.depth + more :=
    ⟨remaining - (cfg.maxDepth - x.2.depth), by omega⟩
  exact climb_fuel (by omega) more

theorem climbOn_round (x : State × Nest) :
    climbOn c cfg e x = climbRound c cfg e x >>= Turn.followedBy (climbOn c cfg e) := by
  rcases x with ⟨s, current⟩
  rw [climbOn, ← climb_fuel (by omega) 1, climb, climbRound]
  split
  · rfl
  · rw [bind_assoc]
    apply bind_congr_ok
    rintro ⟨s', neighbors⟩ hneighbors
    dsimp only
    cases hleast : Nest.least? neighbors with
    | none => rfl
    | some next =>
      have hdepth : next.depth = current.depth + 1 :=
        depth_of_scoreNeighbors hneighbors next (Nest.firstLeast_of_least? hleast).mem
      dsimp only
      split
      · rfl
      · exact climbOn_eq (x := (s', next)) (by dsimp only; omega)

end HillClimbing

section Beam

structure Level where
  level : Nat
  state : State
  beam : List Nest
  bestCost : Float
  plateau : Nat

def beamRound (c : Context) (cfg : SearchParameters) (e : Evaluator) (x : Level) : Checked (Turn Level State) := do
  if cfg.maxDepth ≤ x.level then return .leave x.state
  else
    let (s, candidates) ← scoreNeighborsOfAll c cfg e x.state x.beam
    match (Nest.sorted candidates).take (max cfg.beamWidth 1) with
    | [] => return .leave s
    | n :: ns =>
      let levelCost := n.costOrInfinity
      if improvesOn levelCost x.bestCost cfg.tolerance then
        return .again ⟨x.level + 1, s, n :: ns, levelCost, 0⟩
      else if max cfg.patience 1 ≤ x.plateau + 1 then return .leave s
      else return .again ⟨x.level + 1, s, n :: ns, x.bestCost, x.plateau + 1⟩

theorem beamRound_of_lt {x : Level} (h : x.level < cfg.maxDepth) : beamRound c cfg e x =
    scoreNeighborsOfAll c cfg e x.state x.beam >>= fun r =>
      match (Nest.sorted r.2).take (max cfg.beamWidth 1) with
      | [] => .ok (.leave r.1)
      | n :: ns =>
        if improvesOn n.costOrInfinity x.bestCost cfg.tolerance then
          .ok (.again ⟨x.level + 1, r.1, n :: ns, n.costOrInfinity, 0⟩)
        else if max cfg.patience 1 ≤ x.plateau + 1 then .ok (.leave r.1)
        else .ok (.again ⟨x.level + 1, r.1, n :: ns, x.bestCost, x.plateau + 1⟩) := by
  rw [beamRound, if_neg (Nat.not_le.2 h)]
  rfl

theorem beamRound_eq_again {x y : Level} (h : beamRound c cfg e x = .ok (.again y)) :
    x.level < cfg.maxDepth ∧ y.level = x.level + 1 ∧ ∃ candidates,
      scoreNeighborsOfAll c cfg e x.state x.beam = .ok (y.state, candidates) ∧
      (Nest.sorted candidates).take (max cfg.beamWidth 1) = y.beam ∧ y.beam ≠ [] := by
  unfold beamRound at h
  split at h
  · cases h
  · next hlevel =>
    obtain ⟨⟨s, candidates⟩, hscore, h⟩ := bind_eq_ok.1 h
    dsimp only at h
    split at h
    · cases h
    · next n ns hkept =>
      split at h
      · cases h
        exact ⟨by omega, rfl, candidates, hscore, hkept, List.cons_ne_nil n ns⟩
      · split at h
        · cases h
        · cases h
          exact ⟨by omega, rfl, candidates, hscore, hkept, List.cons_ne_nil n ns⟩

def beamLoop (c : Context) (cfg : SearchParameters) (first : Nest) (s : State) (e : Evaluator) : Loop State :=
  ⟨Level, ⟨0, s, [first], first.costOrInfinity, 0⟩, beamRound c cfg e⟩

def beamOn (c : Context) (cfg : SearchParameters) (e : Evaluator) (x : Level) : Checked State :=
  beamLevels c cfg e (cfg.maxDepth - x.level) x.state x.beam x.bestCost x.plateau

theorem beamOn_round (x : Level) : beamOn c cfg e x = beamRound c cfg e x >>= Turn.followedBy (beamOn c cfg e) := by
  unfold beamRound
  rw [beamOn]
  cases hlevels : cfg.maxDepth - x.level with
  | zero =>
    rw [if_pos (by omega)]
    rfl
  | succ levels =>
    -- the turn goes up one level, which is one level less to go
    have hlater : cfg.maxDepth - (x.level + 1) = levels := by omega
    rw [if_neg (by omega), beamLevels, bind_assoc]
    apply bind_congr_ok
    rintro ⟨s, candidates⟩ _
    dsimp only
    cases (Nest.sorted candidates).take (max cfg.beamWidth 1) with
    | nil => rfl
    | cons n ns =>
      dsimp only
      rw [← hlater]
      split
      · rfl
      · split
        · rfl
        · rfl

end Beam

section Evolution

structure Generation where
  state : State
  next : Nat
  population : List Nest
  bestCost : Float
  plateau : Nat

def generationRound (c : Context) (cfg : SearchParameters) (e : Evaluator) (draws : Draws) (x : Generation) :
    Checked (Turn Generation State) := do
  if x.state.isSpent cfg then return .leave x.state
  else
    let ⟨s, next, offspring⟩ ← breedAll c cfg draws ⟨x.state, x.next, []⟩ x.population
    if offspring.isEmpty then return .leave s
    else
      let (s, scored) ← score cfg e s offspring
      let population := (Nest.sorted (x.population ++ scored)).take (max cfg.population 1)
      match population with
      | [] => return .leave s
      | first :: _ =>
        let cost := first.costOrInfinity
        if improvesOn cost x.bestCost cfg.tolerance then
          return .again ⟨s, next, population, cost, 0⟩
        else
          let limit ← plateauLimit cfg
          if limit ≤ x.plateau + 1 then return .leave s
          else return .again ⟨s, next, population, x.bestCost, x.plateau + 1⟩

theorem generationRound_eq_again {x y : Generation} (h : generationRound c cfg e draws x = .ok (.again y)) :
    ∃ (m : Brood) (scored : List Nest), x.state.isSpent cfg = false ∧
      breedAll c cfg draws ⟨x.state, x.next, []⟩ x.population = .ok m ∧ m.children ≠ [] ∧
      score cfg e m.state m.children = .ok (y.state, scored) ∧
      y.population = (Nest.sorted (x.population ++ scored)).take (max cfg.population 1) := by
  unfold generationRound at h
  split at h
  · cases h
  · next hgo =>
    obtain ⟨⟨s, next, offspring⟩, hbreed, h⟩ := bind_eq_ok.1 h
    dsimp only at h
    split at h
    · cases h
    · next hsome =>
      obtain ⟨⟨s', scored⟩, hscore, h⟩ := bind_eq_ok.1 h
      refine ⟨_, scored, Bool.eq_false_iff.2 hgo, hbreed, by simpa using hsome, ?_⟩
      dsimp only at h
      split at h
      · cases h
      · split at h
        · cases h
          exact ⟨hscore, rfl⟩
        · obtain ⟨limit, -, h⟩ := bind_eq_ok.1 h
          split at h
          · cases h
          · cases h
            exact ⟨hscore, rfl⟩

def generationsOn (c : Context) (cfg : SearchParameters) (e : Evaluator) (draws : Draws) (x : Generation) :
    Checked State :=
  generations c cfg e draws (cfg.maxExplored - x.state.explored) x.state x.next x.population x.bestCost x.plateau

theorem generationsOn_eq {x : Generation} {rounds : Nat} (h : cfg.maxExplored ≤ x.state.explored + rounds) :
    generations c cfg e draws rounds x.state x.next x.population x.bestCost x.plateau =
      generationsOn c cfg e draws x := by
  obtain ⟨more, rfl⟩ : ∃ more, rounds = cfg.maxExplored - x.state.explored + more :=
    ⟨rounds - (cfg.maxExplored - x.state.explored), by omega⟩
  exact generations_fuel (by omega) _ _ _ _ _

theorem generationsOn_round (x : Generation) :
    generationsOn c cfg e draws x =
      generationRound c cfg e draws x >>= Turn.followedBy (generationsOn c cfg e draws) := by
  -- one unit of fuel is spent on this round, and what is left is more than enough
  rw [generationsOn, ← generations_fuel (by omega) 1, generations]
  unfold generationRound
  split
  · rfl
  · next hgo =>
    rw [bind_assoc]
    apply bind_congr_ok
    rintro ⟨s, next, offspring⟩ hbreed
    have hsame : s.explored = x.state.explored := explored_of_breedAll hbreed
    dsimp only
    split
    · rfl
    · rw [bind_assoc]
      apply bind_congr_ok
      rintro ⟨s', scored⟩ hscore
      have hmore := le_explored_of_score hscore
      have hlater : cfg.maxExplored ≤ s'.explored + (cfg.maxExplored - x.state.explored) := by omega
      dsimp only
      cases (Nest.sorted (x.population ++ scored)).take (max cfg.population 1) with
      | nil => rfl
      | cons first rest =>
        dsimp only
        split
        · exact generationsOn_eq (x := ⟨s', next, first :: rest, _, _⟩) hlater
        · rw [bind_assoc]
          apply bind_congr_ok
          intro limit _
          split
          · rfl
          · exact generationsOn_eq (x := ⟨s', next, first :: rest, _, _⟩) hlater

end Evolution

end Search

namespace SearchMethod

open Search

def loop (draws : Draws) (m : SearchMethod) (c : Context) (cfg : SearchParameters) (first : Nest) (s : State)
    (e : Evaluator) : Loop State :=
  match m with
  | exhaustive => ⟨State × List Nest, (s, [first]), depthFirstRound c cfg e⟩
  | beam => beamLoop c cfg first s e
  | greedy => ⟨State × Nest, (s, first), climbRound c cfg e⟩
  | randomized => ⟨Generation, ⟨s, 0, [first], first.costOrInfinity, 0⟩, generationRound c cfg e draws⟩

theorem continueWith_eq_of_ends {draws : Draws} {m : SearchMethod} {c : Context} {cfg : SearchParameters}
    {first : Nest} {s : State} {e : Evaluator} {k : Nat} {r : Checked State}
    (h : (m.loop draws c cfg first s e).Ends k (m.loop draws c cfg first s e).start r) :
    m.continueWith draws c cfg first s e = r := by
  cases m with
  | exhaustive =>
    rw [← h.eq (descendEach c cfg e) descendEach_round]
    exact (bind_pure _).symm
  | beam => exact h.eq (beamOn c cfg e) beamOn_round
  | greedy => exact h.eq (climbOn c cfg e) climbOn_round
  | randomized =>
    rw [← h.eq (generationsOn c cfg e draws) generationsOn_round]
    exact generationsOn_eq (x := ⟨s, 0, [first], first.costOrInfinity, 0⟩) (Nat.le_add_left _ _)

end SearchMethod

end LoopNest
