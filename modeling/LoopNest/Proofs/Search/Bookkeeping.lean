import LoopNest.Proofs.Search.Methods
import LoopNest.Session

namespace LoopNest

open Search

namespace SearchMethod

def continueWith (draws : Draws) (m : SearchMethod) (c : Context) (cfg : SearchParameters) (first : Nest) (s : State)
    (e : Evaluator) : Checked State :=
  match m with
  | exhaustive => descend c cfg e (cfg.maxDepth - first.depth) s first
  | beam => beamLevels c cfg e cfg.maxDepth s [first] first.costOrInfinity 0
  | greedy => climb c cfg e (cfg.maxDepth - first.depth) s first
  | randomized => generations c cfg e draws cfg.maxExplored s 0 [first] first.costOrInfinity 0

variable {draws : Draws} {m : SearchMethod} {c : Context} {cfg : SearchParameters} {initial first : Nest}
  {e : Evaluator} {s earlier : State}

theorem search_eq : m.search c cfg initial e draws earlier = (price initial e >>= fun first =>
    liftM (enter c first >>= fun s => m.continueWith draws c cfg first s e)) := by
  have hbegin : m.search c cfg initial e draws earlier =
      (scoreInitial c earlier initial e >>= fun begun => m.continueWith draws c cfg begun.2 begun.1 e) := by
    cases m <;> rfl
  rw [hbegin, scoreInitial_eq]
  cases price initial e with
  | error failure => rfl
  | ok first =>
    simp only [ok_bind]
    cases enter c first with
    | error f => rfl
    | ok s => rfl

theorem search_earlier {later : State} :
    m.search c cfg initial e draws later = m.search c cfg initial e draws earlier := by
  rw [search_eq, search_eq]

theorem continueWith_balances (s : State) :
    Balances c cfg e first [] s (m.continueWith draws c cfg first s) fun s' => ([], s') := by
  cases m with
  | exhaustive => exact descend_balances _ _ _
  | beam => exact beamLevels_balances _ _ _ _ _
  | greedy => exact climb_balances _ _ _
  | randomized => exact generations_balances _ _ _ _ _ _

theorem search_ne_refuse (hscores : initial.cost.isSome ∨ ∃ x, e.evaluate initial = .ok x) (err : SearchError) :
    m.search c cfg initial e draws earlier ≠ Outcome.refuse err := by
  rw [search_eq]
  intro h
  rcases bind_eq_error.1 h with h | ⟨first, -, h⟩
  · obtain ⟨hcost, err', herr⟩ := price_eq_refuse h
    rcases hscores with hscores | ⟨x, hx⟩
    · simp [hcost] at hscores
    · rw [hx] at herr
      cases herr
  · obtain ⟨f, -, hf⟩ := lift_eq_error.1 h
    cases hf

theorem nodup_asked {asked : List Nest} (hfirst : price initial e = .ok first)
    (hl : Ledger c cfg e first asked [] s) : (unpriced initial ++ asked).Nodup := by
  obtain ⟨x, hsame, -⟩ := price_eq_ok hfirst
  have htext : first.structureText c = initial.structureText c := Nest.structureText_sameTree (by rw [hsame])
  have hdistinct : ((initial :: asked).map (Nest.structureText c)).Nodup := by
    rw [List.map_cons, ← htext]
    simpa using hl.distinct
  unfold unpriced
  split
  · exact (List.Nodup.of_map _ hdistinct).of_cons
  · exact List.Nodup.of_map _ hdistinct

theorem ends_of_search {post : Nest → List Nest → State → Prop}
    (hpost : ∀ first s₀, price initial e = .ok first → enter c first = .ok s₀ →
      Triple e (· = []) (m.continueWith draws c cfg first s₀) (post first))
    (h : m.search c cfg initial e draws earlier = .ok s) :
    ∃ first asked, price initial e = .ok first ∧
      Asks .fault (m.search c cfg initial · draws earlier) e (unpriced initial ++ asked) s ∧ post first asked s := by
  rw [search_eq] at h
  obtain ⟨first, hfirst, h⟩ := bind_eq_ok.1 h
  obtain ⟨s₀, henter, h⟩ := bind_eq_ok.1 (lift_eq_ok.1 h)
  obtain ⟨asked, hasks, hend⟩ := hpost first s₀ hfirst henter [] rfl s h
  refine ⟨first, asked, hfirst, ?_, hend⟩
  have hcontinue : Asks id (fun e => enter c first >>= fun s => m.continueWith draws c cfg first s e) e asked s := by
    rw [henter]
    exact hasks
  rw [show (m.search c cfg initial · draws earlier) = _ from funext fun e => search_eq]
  exact (asks_price hfirst).bind hcontinue.lift

theorem ledger_of_search (h : m.search c cfg initial e draws earlier = .ok s) :
    ∃ first asked, price initial e = .ok first ∧
      Asks .fault (m.search c cfg initial · draws earlier) e (unpriced initial ++ asked) s ∧
      Ledger c cfg e first asked [] s := by
  refine ends_of_search (fun first s₀ hfirst henter => ?_) h
  rintro _ rfl
  exact continueWith_balances s₀ [] (ledger_of_enter hfirst henter)

end SearchMethod

namespace Session

def exploreAll (s : Session) (searches : List (Evaluator × Evaluator)) : Session :=
  searches.foldl (fun s r => (s.explore r.1 r.2).1) s

def found (s : Session) (evaluator : Evaluator) : Outcome SearchError State := do
  let n ← Nest.initial s.context
  s.method.search s.context s.config n evaluator s.draws s.searched

structure SameSetup (s t : Session) : Prop where
  context : s.context = t.context
  method : s.method = t.method
  config : s.config = t.config
  draws : s.draws = t.draws

variable {s t : Session} {executor : Evaluator}

namespace SameSetup

theorem trans {u : Session} (h : SameSetup s t) (h' : SameSetup t u) : SameSetup s u :=
  ⟨h.context.trans h'.context, h.method.trans h'.method, h.config.trans h'.config, h.draws.trans h'.draws⟩

theorem found_eq (h : SameSetup s t) (evaluator : Evaluator) : s.found evaluator = t.found evaluator := by
  obtain ⟨hcontext, hmethod, hconfig, hdraws⟩ := h
  have hearlier : ∀ n, s.method.search s.context s.config n evaluator s.draws s.searched =
      s.method.search s.context s.config n evaluator s.draws t.searched := fun _ => SearchMethod.search_earlier
  rw [found, funext hearlier, found, hcontext, hmethod, hconfig, hdraws]

theorem reportOf_eq (h : SameSetup s t) (evaluator : Evaluator) (x : Float) (r : State) :
    s.reportOf evaluator x r = t.reportOf evaluator x r := by
  rw [reportOf, reportOf, h.method]

theorem measureBaseline (s : Session) (executor : Evaluator) : SameSetup (s.measureBaseline executor).1 s := by
  unfold Session.measureBaseline
  split
  · exact ⟨rfl, rfl, rfl, rfl⟩
  · dsimp only
    split <;> exact ⟨rfl, rfl, rfl, rfl⟩

theorem explore (s : Session) (evaluator executor : Evaluator) : SameSetup (s.explore evaluator executor).1 s := by
  have hmeasured := measureBaseline s executor
  unfold Session.explore
  split
  · next heq =>
    rw [heq] at hmeasured
    exact hmeasured
  · next heq =>
    rw [heq] at hmeasured
    dsimp only
    split <;> exact ⟨hmeasured.context, hmeasured.method, hmeasured.config, hmeasured.draws⟩

theorem exploreAll (s : Session) (searches : List (Evaluator × Evaluator)) : SameSetup (s.exploreAll searches) s := by
  induction searches generalizing s with
  | nil => exact ⟨rfl, rfl, rfl, rfl⟩
  | cons r searches ih => exact (ih _).trans (explore s r.1 r.2)

end SameSetup

theorem explore_of_baseline (evaluator : Evaluator) {x : Float} (hx : (s.measureBaseline executor).2 = .ok x) :
    (s.explore evaluator executor).1.searched = (match s.found evaluator with
      | .ok r => r
      | .error _ => {}) ∧
    (s.explore evaluator executor).2 = (match s.found evaluator with
      | .ok r => .ok (s.reportOf evaluator x r)
      | .error e => Outcome.mapRefusal .search (.error e)) := by
  have hsetup := SameSetup.measureBaseline s executor
  unfold explore
  cases hmeasured : s.measureBaseline executor with
  | mk t answer =>
    rw [hmeasured] at hx hsetup
    cases hx
    rw [← hsetup.found_eq, ← funext (hsetup.reportOf_eq evaluator x)]
    cases hfound : t.found evaluator with
    | error failure =>
      unfold found at hfound
      simp [hfound, State.reset]
    | ok r =>
      unfold found at hfound
      simp [hfound]

end Session

/-- Every method, under any random numbers and behind any earlier search, ends with balanced books unless a fault stops
it, and the earlier search makes no difference to it. Nor do the earlier searches of a session: the same search finds
the same again, and its report differs in nothing but the time it is compared with. -/
theorem search_keeps_books (m : SearchMethod) (draws : Draws) (c : Context) (cfg : SearchParameters)
    (initial : Nest) (earlier : State) (e : Evaluator)
    (hscores : initial.cost.isSome ∨ ∃ x, e.evaluate initial = .ok x) :
    (∀ err, m.search c cfg initial e draws earlier ≠ Outcome.refuse err) ∧
    (∀ s, m.search c cfg initial e draws earlier = .ok s → ∃ first asked, price initial e = .ok first ∧
      Asks .fault (m.search c cfg initial · draws earlier) e (unpriced initial ++ asked) s ∧
      Ledger c cfg e first asked [] s ∧
      ∀ others : List Nest, others.Nodup → Asks .fault (m.search c cfg initial · draws earlier) e others s →
        others = unpriced initial ++ asked) ∧
    (∀ later, m.search c cfg initial e draws later = m.search c cfg initial e draws earlier) ∧
    ∀ (session : Session) (searches : List (Evaluator × Evaluator)) (executor executor' : Evaluator) (x y : Float),
      (session.measureBaseline executor).2 = .ok x →
      ((session.exploreAll searches).measureBaseline executor').2 = .ok y →
      ((session.exploreAll searches).explore e executor').1.searched = (session.explore e executor).1.searched ∧
      ((session.exploreAll searches).explore e executor').2 =
        (session.explore e executor).2.map (fun r => { r with baselineTime := y }) ∧
      (x = y → ((session.exploreAll searches).explore e executor').2 = (session.explore e executor).2) := by
  refine ⟨SearchMethod.search_ne_refuse hscores, ?_, fun later => SearchMethod.search_earlier, ?_⟩
  · intro s h
    obtain ⟨first, asked, hfirst, hasks, hledger⟩ := SearchMethod.ledger_of_search h
    refine ⟨first, asked, hfirst, hasks, hledger, fun others hnodup hothers => ?_⟩
    exact hothers.unique (fun f g heq => Failure.fault.inj heq) hasks hnodup
      (SearchMethod.nodup_asked hfirst hledger)
  intro session searches executor executor' x y hx hy
  obtain ⟨hsearched, hanswer⟩ := Session.explore_of_baseline e hx
  obtain ⟨hsearched', hanswer'⟩ := Session.explore_of_baseline e hy
  have hsetup := Session.SameSetup.exploreAll session searches
  rw [hsearched, hsearched', hanswer, hanswer', hsetup.found_eq, funext (hsetup.reportOf_eq e y)]
  refine ⟨rfl, ?_, ?_⟩
  · cases session.found e with
    | ok r => rfl
    | error failure => cases failure <;> rfl
  · rintro rfl
    rfl

namespace ProducerConsumer

def onlyFusion : SearchParameters := { maxDepth := 1, maxExplored := 2, sampleSize := 1, population := 1 }

def fusion : Transformation := .fuse "produce" "consume" "i"

def separateNest : Nest := { roots := separate, cost := some 1.0 }

def fusedNest : Nest := { roots := fused {}, applied := [fusion] }

def fusedText : String := "for i in [0, 2)\n  produce(i)\n  consume(i)\n"

theorem breedAll_fused {s : State} (h : fusedText ∉ s.seen) :
    breedAll (Context.ofProgram program) onlyFusion (fun _ => 4) ⟨s, 0, []⟩ [separateNest] =
      .ok ⟨{ s with seen := s.seen.insert fusedText }, 5, [fusedNest]⟩ := by
  have hderive : separateNest.derive (Context.ofProgram program) fusion = .ok fusedNest :=
    Nest.derive_of_legal rfl checkLegal_fused.1
  have hchild : separateNest.derive? (Context.ofProgram program) fusion = .ok (some fusedNest) := by
    rw [Nest.derive?, hderive]
  have htext : fusedNest.structureText (Context.ofProgram program) = .ok fusedText := rfl
  have hvisit : Search.visit (Context.ofProgram program) s fusedNest =
      .ok ({ s with seen := s.seen.insert fusedText }, true) := by
    rw [Search.visit, htext, ok_bind, if_neg (by simpa using h)]
    rfl
  have hunseen : firstUnseen (Context.ofProgram program) separateNest s [fusion] =
      .ok ({ s with seen := s.seen.insert fusedText }, some fusedNest) := by
    rw [firstUnseen, hchild, ok_bind]
    dsimp only
    rw [hvisit]
    rfl
  have hbreed : breed (Context.ofProgram program) onlyFusion (fun _ => 4) ⟨s, 0, []⟩ separateNest =
      (firstUnseen (Context.ofProgram program) separateNest s [fusion] >>= fun r =>
        .ok ⟨r.1, 5, r.2.toList⟩) := rfl
  rw [breedAll, hbreed, hunseen]
  rfl

theorem exists_search (earlier : State) : ∃ s, SearchMethod.randomized.search (Context.ofProgram program) onlyFusion
    { roots := separate } (.constant 1.0) (fun _ => 4) earlier = .ok s ∧ s.explored = 2 := by
  have hprice : price { roots := separate } (.constant 1.0) = .ok separateNest := rfl
  obtain ⟨s₀, henter, hexplored, hfree⟩ : ∃ s₀, enter (Context.ofProgram program) separateNest = .ok s₀ ∧
      s₀.explored = 1 ∧ fusedText ∉ s₀.seen :=
    ⟨_, rfl, rfl, not_mem_insert_empty (by decide)⟩
  obtain ⟨explored, discarded, best, history, seen⟩ := s₀
  cases hexplored
  have hgo : ¬ State.isSpent ⟨1, discarded, best, history, seen⟩ onlyFusion := Bool.false_ne_true
  -- the fusion is the one neighbour, and marking it spends the budget of two
  let s₁ : State := ⟨2, discarded, best, history, seen.insert fusedText⟩
  let priced : Nest := { fusedNest with cost := some 1.0 }
  have hscore : score onlyFusion (.constant 1.0) ⟨1, discarded, best, history, seen.insert fusedText⟩ [fusedNest] =
      .ok ((s₁.consider priced).recordRound, [priced]) := rfl
  have hspent : ((s₁.consider priced).recordRound).isSpent onlyFusion := by
    rw [State.isSpent, explored_recordRound, explored_consider]
    rfl
  refine ⟨(s₁.consider priced).recordRound, ?_, ?_⟩
  · rw [SearchMethod.search_eq, hprice, ok_bind, henter, ok_bind, lift_eq_ok, SearchMethod.continueWith]
    change generations _ _ _ _ (1 + 1) _ _ _ _ _ = _
    rw [generations, if_neg hgo, breedAll_fused hfree, ok_bind]
    dsimp only
    rw [if_neg (by decide), hscore, ok_bind]
    dsimp only
    split
    · rfl
    · split
      · exact generations_of_isSpent hspent _ _ _ _ _
      · have hlimit : plateauLimit onlyFusion = .ok 2 := rfl
        rw [hlimit, ok_bind, if_neg (by decide)]
        exact generations_of_isSpent hspent _ _ _ _ _
  · rw [explored_recordRound, explored_consider]

end ProducerConsumer

open ProducerConsumer in
theorem search_keeps_books_producerConsumer : ∃ s first asked,
    SearchMethod.randomized.search (Context.ofProgram program) onlyFusion { roots := separate } (.constant 1.0)
      (fun _ => 4) { explored := 3 } = .ok s ∧ s.explored = 2 ∧
    Asks .fault (SearchMethod.randomized.search (Context.ofProgram program) onlyFusion { roots := separate } ·
      (fun _ => 4) { explored := 3 }) (.constant 1.0) ({ roots := separate } :: asked) s ∧
    Ledger (Context.ofProgram program) onlyFusion (.constant 1.0) first asked [] s := by
  obtain ⟨s, hs, hexplored⟩ := ProducerConsumer.exists_search { explored := 3 }
  obtain ⟨-, hbooks, -⟩ := search_keeps_books .randomized (fun _ => 4) (Context.ofProgram program) onlyFusion
    { roots := separate } { explored := 3 } (.constant 1.0) (Or.inr ⟨1.0, rfl⟩)
  obtain ⟨first, asked, -, hasks, hledger, -⟩ := hbooks s hs
  exact ⟨s, first, asked, hs, hexplored, hasks, hledger⟩

end LoopNest
