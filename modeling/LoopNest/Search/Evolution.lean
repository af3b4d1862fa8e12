import LoopNest.Search.Basic
import LoopNest.Search.Shuffle

namespace LoopNest.Search

def firstUnseen (c : Context) (parent : Nest) :
    State → List Transformation → Checked (State × Option Nest)
  | s, [] => .ok (s, none)
  | s, t :: ts => do
    match ← parent.derive? c t with
    | none => firstUnseen c parent s ts
    | some child =>
      let (s, isNew) ← visit c s child
      if isNew then return (s, some child) else firstUnseen c parent s ts

structure Brood where
  state : State
  next : Nat
  children : List Nest

def breed (c : Context) (cfg : SearchParameters) (draws : Draws) (m : Brood) (parent : Nest) :
    Checked Brood := do
  if cfg.maxDepth ≤ parent.depth then return m
  else
    let candidates ← parent.candidates c
    -- numbers are drawn for all candidates, though only a sample of them is tried
    let (order, next) := shuffle draws m.next candidates
    let (state, child) ← firstUnseen c parent m.state (order.take (max cfg.sampleSize 1))
    return { state, next, children := m.children ++ child.toList }

def breedAll (c : Context) (cfg : SearchParameters) (draws : Draws) : Brood → List Nest → Checked Brood
  | m, [] => .ok m
  | m, n :: ns => do
    let m ← breed c cfg draws m n
    breedAll c cfg draws m ns

/-- The plateau that ends the search counts generations in units of the population, in one machine word. -/
def plateauLimit (cfg : SearchParameters) : Checked Nat :=
  let limit := max cfg.patience 1 * max cfg.population 1
  if limit < 1 <<< 64 then .ok limit else .error .overflow

def generations (c : Context) (cfg : SearchParameters) (e : Evaluator) (draws : Draws) :
    Nat → State → Nat → List Nest → Float → Nat → Checked State
  -- no generation goes by without a nest to score, so the most nests to score are rounds enough
  | 0, s, _, _, _, _ => .ok s
  | rounds + 1, s, next, population, bestCost, plateau => do
    if s.isSpent cfg then return s
    else
      let ⟨s, next, offspring⟩ ← breedAll c cfg draws ⟨s, next, []⟩ population
      if offspring.isEmpty then return s
      else
        let (s, scored) ← score cfg e s offspring
        let population := (Nest.sorted (population ++ scored)).take (max cfg.population 1)
        match population with
        | [] => return s
        | first :: _ =>
          let cost := first.costOrInfinity
          if improvesOn cost bestCost cfg.tolerance then
            generations c cfg e draws rounds s next population cost 0
          else
            let limit ← plateauLimit cfg
            if limit ≤ plateau + 1 then return s
            -- the cost to improve on stays that of the last improvement
            else generations c cfg e draws rounds s next population bestCost (plateau + 1)

def evolution (c : Context) (cfg : SearchParameters) (e : Evaluator) (draws : Draws) (earlier : State)
    (initial : Nest) : Outcome SearchError State := do
  let (s, n) ← scoreInitial c earlier initial e
  generations c cfg e draws cfg.maxExplored s 0 [n] n.costOrInfinity 0

end LoopNest.Search
