import LoopNest.Proofs.Nest.Saved
import LoopNest.Proofs.Search.Breadth
import LoopNest.Proofs.Search.Costs

namespace LoopNest

open Search

def Schedule.Improves (c : Context) (e : Evaluator) (initial : Nest) (ts : Schedule) : Prop :=
  ∀ before t after, ts = before ++ t :: after → ∃ n m x y, initial.deriveAll c before = .ok n ∧
    n.derive c t = .ok m ∧ e.evaluate n = .ok x ∧ e.evaluate m = .ok y ∧ y < x

def Evaluator.Structural (e : Evaluator) (c : Context) (initial : Nest) : Prop :=
  ∀ n m key, Derives c initial n → Derives c initial m → n.structureText c = .ok key →
    m.structureText c = .ok key → e.evaluate n = e.evaluate m

theorem Evaluator.structural_of_roots {description : Description} {p : Program} (hp : description.build = .ok p)
    (hnames : p.NamedByIdentifiers) {initial : Nest} (hinitial : Reshaped p initial.roots) {e : Evaluator}
    (he : ∀ n m, n.roots = m.roots → e.evaluate n = e.evaluate m) : e.Structural (Context.ofProgram p) initial := by
  intro n m key hn hm hkey hkey'
  apply he
  exact roots_eq_of_structureText hp hnames (hn.reshaped hinitial) (hm.reshaped hinitial) hkey hkey'

namespace Search

variable {c : Context} {cfg : SearchParameters} {e : Evaluator} {initial first n m : Nest} {s s' : State} {x y : Float}
  {asked : List Nest}

section Path

inductive Falls (c : Context) (e : Evaluator) (initial : Nest) : Nest → Float → Prop where
  | start {x : Float} : e.evaluate initial = .ok x → Falls c e initial initial x
  | next {n m : Nest} {ns : List Nest} {x y : Float} : Falls c e initial n x → n.neighbors c = .ok ns → m ∈ ns →
      e.evaluate m = .ok y → y < x → Falls c e initial m y

namespace Falls

theorem evaluate (h : Falls c e initial n x) : e.evaluate n = .ok x := by
  cases h with
  | start hx => exact hx
  | next _ _ _ hx _ => exact hx

theorem derives (h : Falls c e initial n x) : Derives c initial n := by
  induction h with
  | start _ => exact .start
  | next _ hns hm _ _ ih => exact ih.of_neighbors hns hm

theorem exists_schedule (h : Falls c e initial n x) :
    ∃ ts, initial.deriveAll c ts = .ok n ∧ ts.Improves c e initial := by
  induction h with
  | start _ => exact ⟨[], rfl, fun before t after hsplit => by simp at hsplit⟩
  | @next n m ns x y hn hns hm hy hlt ih =>
    obtain ⟨ts, hts, himproves⟩ := ih
    obtain ⟨-, -, t, -, hderive⟩ := Nest.mem_neighbors hns hm
    refine ⟨ts ++ [t], Nest.deriveAll_snoc hts hderive, fun before t' after hsplit => ?_⟩
    cases after using List.reverseRecOn with
    | nil =>
      obtain ⟨rfl, htail⟩ := List.append_inj' hsplit rfl
      cases htail
      exact ⟨n, m, x, y, hts, hderive, hn.evaluate, hy, hlt⟩
    | append_singleton after last =>
      rw [← List.cons_append, ← List.append_assoc] at hsplit
      exact himproves before t' after (List.append_inj' hsplit rfl).1

end Falls

end Path

section Rounds

/-- On the way down the nest reached is the best so far. -/
structure Standing (c : Context) (cfg : SearchParameters) (e : Evaluator) (initial first : Nest) (asked : List Nest)
    (s : State) (n : Nest) (x : Float) : Prop where
  priced : ∃ x₀, e.evaluate initial = .ok x₀ ∧ first = { initial with cost := some x₀ }
  ledger : Ledger c cfg e first asked [] s
  derived : ∀ m ∈ asked, Derives c initial m
  best : s.best = some { n with cost := some x }
  falls : Falls c e initial n x

structure Expands (c : Context) (cfg : SearchParameters) (e : Evaluator) (initial first : Nest) (s' : State) (n : Nest)
    (x : Float) (scored : List Nest) : Prop where
  books : ∃ asked, Ledger c cfg e first asked [] s' ∧ ∀ m ∈ asked, Derives c initial m
  opened : Opened c s' n
  best : ∃ b, s'.best = some b ∧ b.FirstLeast ({ n with cost := some x } :: scored)
  scored : ∀ k ∈ scored, ∃ ns m y, n.neighbors c = .ok ns ∧ m ∈ ns ∧ e.evaluate m = .ok y ∧
    k = { m with cost := some y }

namespace Standing

variable {scored : List Nest}

theorem expand (h : Standing c cfg e initial first asked s n x) (hdepth : ¬ cfg.maxDepth ≤ n.depth)
    (hspent : ¬ s.isSpent cfg) (hround : scoreNeighbors c cfg e s { n with cost := some x } = .ok (s', scored)) :
    Expands c cfg e initial first s' n x scored := by
  have hgo : ¬ (decide (cfg.maxDepth ≤ ({ n with cost := some x } : Nest).depth) || s.isSpent cfg) = true := by
    rw [Bool.or_eq_true_iff, decide_eq_true_iff]
    exact fun hstop => hstop.elim hdepth hspent
  rw [scoreNeighbors, if_neg hgo, Nest.neighbors_priced] at hround
  obtain ⟨neighbors, hneighbors, hround⟩ := bind_eq_ok.1 hround
  obtain ⟨⟨s₁, fresh⟩, hfresh, hscore⟩ := bind_eq_ok.1 hround
  dsimp only at hscore
  have hopens := h.ledger.opens hdepth hneighbors hfresh hscore
  obtain ⟨s₂, hscores, hs₂, rfl⟩ := scores_of_score hscore
  generalize fresh.take (cfg.maxExplored - s₁.explored) = more at hopens hscores ⊢
  constructor
  · refine ⟨_, hopens.ledger, List.forall_mem_append.2 ⟨h.derived, fun m hm => ?_⟩⟩
    exact h.falls.derives.of_neighbors hneighbors (hopens.new m hm)
  · exact ⟨neighbors, hneighbors, hopens.seen⟩
  · have hbest : s₁.best = some { n with cost := some x } := (best_of_visitAll hfresh).trans h.best
    obtain ⟨b, hb, hleast⟩ := hscores.best _ _ hbest (Nest.FirstLeast.singleton _)
    rw [hs₂, recordRound_eq]
    exact ⟨b, hb, hleast⟩
  · intro k hk
    obtain ⟨m, hm, y, hy, rfl⟩ := mem_scored_iff.1 hk
    exact ⟨neighbors, m, y, hneighbors, hopens.new m hm, hy, rfl⟩

theorem stays (h : Standing c cfg e initial first asked s n x) (hexpands : Expands c cfg e initial first s' n x scored)
    (hle : ∀ k ∈ scored, totalOrder x ≤ totalOrder k.costOrInfinity) :
    ∃ asked, Standing c cfg e initial first asked s' n x := by
  obtain ⟨asked', hledger, hderived⟩ := hexpands.books
  obtain ⟨b, hb, hleast⟩ := hexpands.best
  refine ⟨asked', h.priced, hledger, hderived, ?_, h.falls⟩
  rw [hb, hleast.unique (Nest.FirstLeast.cons_self fun k hk => ?_)]
  obtain ⟨ns, m, y, hns, hm, -, rfl⟩ := hexpands.scored k hk
  obtain ⟨ts, -, t, -, hderive⟩ := Nest.mem_neighbors hns hm
  have hlonger := Nest.depth_derive hderive
  apply Nest.isLE_compare
  · exact hle _ hk
  · change n.depth ≤ m.depth
    omega

theorem moves (h : Standing c cfg e initial first asked s n x) (hexpands : Expands c cfg e initial first s' n x scored)
    (hcosts : ∀ n x, e.evaluate n = .ok x → IsCost x) {next : Nest} (hleast : Nest.least? scored = some next)
    (hlt : totalOrder next.costOrInfinity < totalOrder x) :
    ∃ asked m y, next = { m with cost := some y } ∧ m.depth = n.depth + 1 ∧
      Standing c cfg e initial first asked s' m y := by
  obtain ⟨asked', hledger, hderived⟩ := hexpands.books
  obtain ⟨b, hb, hbest⟩ := hexpands.best
  have hnext := Nest.firstLeast_of_least? hleast
  obtain ⟨ns, m, y, hns, hm, hy, rfl⟩ := hexpands.scored next hnext.mem
  obtain ⟨ts, -, t, -, hderive⟩ := Nest.mem_neighbors hns hm
  refine ⟨asked', m, y, rfl, Nest.depth_derive hderive, h.priced, hledger, hderived, ?_, ?_⟩
  · rw [hb, hbest.unique (hnext.cons_of_lt (Nest.isLT_compare hlt))]
  · exact h.falls.next hns hm hy (((hcosts _ _ hy).lt_iff (hcosts _ _ h.falls.evaluate)).2 hlt)

end Standing

theorem standing_of_climb (hbudget : cfg.timeBudget = none) (hcosts : ∀ n x, e.evaluate n = .ok x → IsCost x)
    {remaining : Nat} (hn : cfg.maxDepth ≤ n.depth + remaining) (h : Standing c cfg e initial first asked s n x)
    (hclimb : climb c cfg e remaining s { n with cost := some x } = .ok s') :
    ∃ asked m y, Standing c cfg e initial first asked s' m y ∧
      (s'.explored < cfg.maxExplored → m.depth < cfg.maxDepth → Opened c s' m) := by
  induction remaining generalizing s n x asked with
  | zero =>
    cases hclimb
    exact ⟨asked, n, x, h, fun _ hshallow => by omega⟩
  | succ remaining ih =>
    rw [climb] at hclimb
    by_cases hspent : s.isSpent cfg
    · rw [if_pos hspent] at hclimb
      cases hclimb
      have hlimit := (isSpent_iff hbudget).1 hspent
      exact ⟨asked, n, x, h, fun hroom _ => by omega⟩
    rw [if_neg hspent] at hclimb
    obtain ⟨⟨s₂, scored⟩, hround, hclimb⟩ := bind_eq_ok.1 hclimb
    dsimp only at hclimb
    by_cases hdepth : cfg.maxDepth ≤ n.depth
    · rw [scoreNeighbors_deep (n := { n with cost := some x }) hdepth] at hround
      cases hround
      cases hclimb
      exact ⟨asked, n, x, h, fun _ hshallow => by omega⟩
    have hexpands := h.expand hdepth hspent hround
    have hx := hcosts _ _ h.falls.evaluate
    cases hleast : Nest.least? scored with
    | none =>
      rw [hleast] at hclimb
      cases hclimb
      cases scored with
      | nil =>
        obtain ⟨asked', hstays⟩ := h.stays hexpands fun k hk => absurd hk List.not_mem_nil
        exact ⟨asked', n, x, hstays, fun _ _ => hexpands.opened⟩
      | cons k scored => cases hleast
    | some next =>
      rw [hleast] at hclimb
      dsimp only at hclimb
      have hnext := Nest.firstLeast_of_least? hleast
      obtain ⟨ns, m, y, hns, hm, hy, hpriced⟩ := hexpands.scored next hnext.mem
      have hy' : IsCost next.costOrInfinity := by
        rw [hpriced]
        exact hcosts _ _ hy
      split at hclimb
      · -- the least neighbour is no improvement, so no other one is
        next hge =>
        cases hclimb
        obtain ⟨asked', hstays⟩ := h.stays hexpands fun k hk =>
          Int.le_trans ((hx.le_iff hy').1 hge) (Nest.totalOrder_le_of_compare (hnext.isLE hk))
        exact ⟨asked', n, x, hstays, fun _ _ => hexpands.opened⟩
      · next hless =>
        have hlt : totalOrder next.costOrInfinity < totalOrder x := by
          apply Int.not_le.1
          exact fun hle => hless ((hx.le_iff hy').2 hle)
        obtain ⟨asked', m', y', rfl, hlonger, hmoves⟩ := h.moves hexpands hcosts hleast hlt
        exact ih (by omega) hmoves hclimb

end Rounds

theorem standing_of_enter (hcost : initial.cost = none) (hfirst : price initial e = .ok first)
    (henter : enter c first = .ok s) : ∃ x, first = { initial with cost := some x } ∧
      Standing c cfg e initial first [] s initial x := by
  have hledger : Ledger c cfg e first [] [] s := ledger_of_enter hfirst henter
  unfold price at hfirst
  rw [hcost] at hfirst
  obtain ⟨x, hx, rfl⟩ := map_eq_ok.1 hfirst
  have hx' := Outcome.mapRefusal_eq_ok.1 hx
  obtain ⟨key, -, henter⟩ := bind_eq_ok.1 henter
  cases henter
  exact ⟨x, rfl, ⟨x, hx', rfl⟩, hledger, fun m hm => absurd hm List.not_mem_nil, rfl, .start hx'⟩

theorem Standing.le_of_seen (h : Standing c cfg e initial first asked s n x) (hstructural : e.Structural c initial)
    (hroom : s.explored < cfg.maxExplored) (hm : Derives c initial m) {key : String}
    (hkey : m.structureText c = .ok key) (hseen : key ∈ s.seen) (hy : e.evaluate m = .ok y) :
    totalOrder x ≤ totalOrder y := by
  obtain ⟨x₀, hx₀, rfl⟩ := h.priced
  obtain ⟨b, -, hb, -, -, hleast⟩ := h.ledger.best
  rw [h.best, Option.some.injEq] at hb
  subst hb
  have hscored : ∃ k : Nest,
      ({ k with cost := some y } : Nest) ∈ ({ initial with cost := some x₀ } : Nest) :: e.scored asked := by
    rcases h.ledger.known key hseen with ⟨k, hk, htext⟩ | hspent
    · rw [List.append_nil] at hk
      rcases List.mem_cons.1 hk with rfl | hasked
      · have hsame := hstructural initial m key .start hm htext hkey
        rw [hx₀, hy, Except.ok.injEq] at hsame
        exact ⟨initial, by rw [hsame]; exact List.mem_cons_self⟩
      · have hsame := hstructural k m key (h.derived k hasked) hm htext hkey
        exact ⟨k, List.mem_cons_of_mem _ (mem_scored_iff.2 ⟨k, hasked, y, hsame.trans hy, rfl⟩)⟩
    · omega
  obtain ⟨k, hk⟩ := hscored
  exact Nest.totalOrder_le_of_compare (hleast.isLE hk)

end Search

/-- Each transformation that hill climbing took on the way to its best nest made the nest cheaper. If the search ended
with budget left and the best nest could be transformed further, none of its neighbours is cheaper. -/
theorem greedy_climbs (c : Context) (cfg : SearchParameters) (initial : Nest) (e : Evaluator) (draws : Draws)
    (earlier s : State)
    (hbudget : cfg.timeBudget = none) (hcosts : ∀ n x, e.evaluate n = .ok x → IsCost x) (hcost : initial.cost = none)
    (h : SearchMethod.greedy.search c cfg initial e draws earlier = .ok s) :
    ∃ n x ts, s.best = some { n with cost := some x } ∧ n.applied = initial.applied ++ ts ∧
      initial.deriveAll c ts = .ok n ∧ e.evaluate n = .ok x ∧ ts.Improves c e initial ∧
      (s.explored < cfg.maxExplored → n.depth < cfg.maxDepth → e.Structural c initial →
        ∃ ns, Nest.neighbors c { n with cost := some x } = .ok ns ∧
          ∀ m ∈ ns, ∀ y, e.evaluate m = .ok y → ¬ y < x) := by
  rw [SearchMethod.search_eq] at h
  obtain ⟨first, hfirst, h⟩ := bind_eq_ok.1 h
  obtain ⟨s₀, henter, hclimb⟩ := bind_eq_ok.1 (lift_eq_ok.1 h)
  obtain ⟨x₀, rfl, hstart⟩ : ∃ x₀, first = { initial with cost := some x₀ } ∧
      Standing c cfg e initial first [] s₀ initial x₀ := standing_of_enter hcost hfirst henter
  have hrounds : cfg.maxDepth ≤ initial.depth + (cfg.maxDepth - initial.depth) := by omega
  obtain ⟨asked, n, x, hend, hopened⟩ := standing_of_climb hbudget hcosts hrounds hstart hclimb
  obtain ⟨ts, hts, himproves⟩ := hend.falls.exists_schedule
  have hx := hend.falls.evaluate
  have happlied := Nest.applied_deriveAll hts
  refine ⟨n, x, ts, hend.best, happlied, hts, hx, himproves, fun hroom hshallow hstructural => ?_⟩
  obtain ⟨ns, hns, hseen⟩ := hopened hroom hshallow
  refine ⟨ns, (Nest.neighbors_priced _).trans hns, fun m hm y hy hlt => ?_⟩
  obtain ⟨key, hkey, hmem⟩ := hseen m hm
  have hle := hend.le_of_seen hstructural hroom (hend.falls.derives.of_neighbors hns hm) hkey hmem hy
  have hlt' := ((hcosts m y hy).lt_iff (hcosts n x hx)).1 hlt
  omega

namespace SingleIteration

def preference : Evaluator where
  name := "preference"
  evaluate n := match n.roots with
    | [.loop h _] => .ok (if h.tags.parallel then 1.0 else 2.0)
    | _ => .ok 2.0

def improved : Nest := { parallelNest with cost := some 1.0 }

theorem isCost_preference (n : Nest) (x : Float) (h : preference.evaluate n = .ok x) : IsCost x := by
  have hone : IsCost 1.0 := by unfold IsCost; decide +kernel
  have htwo : IsCost 2.0 := by unfold IsCost; decide +kernel
  unfold preference at h
  dsimp only at h
  split at h
  · split at h
    · cases h
      exact hone
    · cases h
      exact htwo
  · cases h
    exact htwo

theorem exists_climb (draws : Draws) (earlier : State) : ∃ s, SearchMethod.greedy.search context parameters
    { roots := tree {} } preference draws earlier = .ok s ∧ s.explored = 2 ∧ s.best = some improved := by
  let first : Nest := { roots := tree {}, cost := some 2.0 }
  have hprice : price { roots := tree {} } preference = .ok first := rfl
  obtain ⟨discarded, history, seen, henter, hfree⟩ : ∃ discarded history seen,
      enter context first = .ok ⟨1, discarded, some first, history, seen⟩ ∧ parallelText ∉ seen :=
    ⟨_, _, _, rfl, not_mem_insert_empty (by decide)⟩
  -- the one neighbour is marked and is cheaper than the first nest
  let s₁ : State := ⟨2, discarded, some first, history, seen.insert parallelText⟩
  let s₂ := (s₁.consider improved).recordRound
  have hround : scoreNeighbors context parameters preference ⟨1, discarded, some first, history, seen⟩ first =
      .ok (s₂, [improved]) := by
    have hneighbors : first.neighbors context = .ok [parallelNest] := by
      have hsame := Nest.neighbors_priced (c := context) (n := { roots := tree {} })
      exact (hsame (some 2.0)).trans ((hsame (some 1.0)).symm.trans neighbors_tree)
    have hgo : ¬ (decide (parameters.maxDepth ≤ first.depth) ||
        State.isSpent ⟨1, discarded, some first, history, seen⟩ parameters) = true := Bool.false_ne_true
    have htext : parallelNest.structureText context = .ok parallelText := rfl
    have hvisit : visit context ⟨1, discarded, some first, history, seen⟩ parallelNest =
        .ok (⟨1, discarded, some first, history, seen.insert parallelText⟩, true) := by
      rw [visit, htext, ok_bind, if_neg (by simpa using hfree)]
      rfl
    rw [scoreNeighbors, if_neg hgo, hneighbors, ok_bind, visitAll, hvisit]
    rfl
  have hbest : s₂.best = some improved := by
    have hlt : (Nest.compare improved first).isLT := Nest.isLT_compare (by decide +kernel)
    have hconsider : (s₁.consider improved).best = some improved := by
      rw [best_consider (s := s₁) rfl, if_pos hlt]
    rw [show s₂ = (s₁.consider improved).recordRound from rfl, recordRound_eq]
    exact hconsider
  have hexplored : s₂.explored = 2 := by rw [explored_recordRound, explored_consider]
  -- there is a transformation left, but no neighbour that has not been seen
  have hlast : ∀ s : State, s.explored = 2 →
      scoreNeighbors context parameters preference s improved = .ok (s.recordRound, []) := by
    rintro ⟨explored, discarded, best, history, seen⟩ rfl
    rfl
  refine ⟨s₂.recordRound, ?_, ?_, ?_⟩
  · have hfresh : ¬ State.isSpent ⟨1, discarded, some first, history, seen⟩ parameters := Bool.false_ne_true
    have hgo : ¬ s₂.isSpent parameters := by
      rw [State.isSpent, hexplored]
      exact Bool.false_ne_true
    have hless : ¬ improved.costOrInfinity ≥ first.costOrInfinity := by decide +kernel
    rw [SearchMethod.search_eq, hprice, ok_bind, henter, ok_bind, lift_eq_ok]
    change climb _ _ _ (1 + 1) _ _ = _
    rw [climb, if_neg hfresh, hround, ok_bind]
    change (if improved.costOrInfinity ≥ first.costOrInfinity then _ else
      climb context parameters preference 1 s₂ improved) = _
    rw [if_neg hless, climb, if_neg hgo, hlast s₂ hexplored]
    rfl
  · rw [explored_recordRound, hexplored]
  · rw [recordRound_eq, hbest]

end SingleIteration

open SingleIteration in
theorem greedy_climbs_singleIteration : ∃ (s : State) (n : Nest) (x : Float) (ts : Schedule),
    SearchMethod.greedy.search context parameters { roots := tree {} } preference (fun _ => 0) {} = .ok s ∧
    s.explored = 2 ∧ s.best = some { n with cost := some x } ∧ ({ n with cost := some x } : Nest) = improved ∧
    ts = [.parallelize "i"] ∧ ts.Improves context preference { roots := tree {} } ∧
    ∃ ns, Nest.neighbors context { n with cost := some x } = .ok ns ∧
      ∀ m ∈ ns, ∀ y, preference.evaluate m = .ok y → ¬ y < x := by
  obtain ⟨s, hs, hexplored, himproved⟩ := exists_climb (fun _ => 0) {}
  obtain ⟨n, x, ts, hbest, happlied, -, -, himproves, hpeak⟩ := greedy_climbs context parameters { roots := tree {} }
    preference (fun _ => 0) {} s rfl isCost_preference rfl hs
  have hsame : ({ n with cost := some x } : Nest) = improved := Option.some.inj (hbest.symm.trans himproved)
  have hsteps : n.applied = [.parallelize "i"] := congrArg Nest.applied hsame
  have hdepth : n.depth = 1 := congrArg List.length hsteps
  have hstructural : preference.Structural context { roots := tree {} } := by
    apply Evaluator.structural_of_roots build_eq named
    · exact Nest.reshaped_of_reachable reachable
    · intro n m hroots
      unfold preference
      dsimp only
      rw [hroots]
  refine ⟨s, n, x, ts, hs, hexplored, hbest, hsame, happlied.symm.trans hsteps, himproves, ?_⟩
  exact hpeak (by rw [hexplored]; decide) (by rw [hdepth]; decide) hstructural

end LoopNest
