import LoopNest.Proofs.Dataflow.Legality
import LoopNest.Proofs.Search.Bookkeeping

namespace LoopNest

open Search

namespace Session

inductive Call where
  | measure (executor : Evaluator)
  | explore (evaluator executor : Evaluator)
  | run (executor : Evaluator)

inductive Result where
  | time (x : Float)
  | report (r : SearchSummary)
  | run (b : BestRun)

def step (s : Session) : Call → Answer Result
  | .measure executor => ((s.measureBaseline executor).1, (s.measureBaseline executor).2.map .time)
  | .explore evaluator executor => ((s.explore evaluator executor).1, (s.explore evaluator executor).2.map .report)
  | .run executor => (s, (s.runBest executor).map .run)

inductive After (s : Session) : List Call → Session → Prop
  | start : After s [] s
  | call {calls : List Call} {t : Session} (h : After s calls t) (c : Call)
      (hreturned : ∀ f, (t.step c).2 ≠ .error (.fault f)) : After s (calls ++ [c]) (t.step c).1

def timed (s : Session) (executor : Evaluator) : Outcome SessionError Float := do
  let n ← Nest.initial s.context
  (executor.evaluate n).mapRefusal .baselineFailed

def Call.baseline? (s : Session) : Call → Option Float
  | .measure executor => (s.timed executor).toOption
  | .explore _ executor => (s.timed executor).toOption
  | .run _ => none

def CannotBegin (s : Session) (evaluator : Evaluator) : Prop :=
  ∃ n err, Nest.initial s.context = .ok n ∧ evaluator.evaluate n = Outcome.refuse err

section Step

theorem measureBaseline_of_none {s : Session} (h : s.baseline = none) (executor : Evaluator) :
    s.measureBaseline executor = match s.timed executor with
      | .ok x => ({ s with baseline := some x }, .ok x)
      | .error e => (s, .error e) := by
  rw [measureBaseline, h]
  rfl

theorem measureBaseline_of_some {s : Session} {x : Float} (h : s.baseline = some x) (executor : Evaluator) :
    s.measureBaseline executor = (s, .ok x) := by
  rw [measureBaseline, h]

theorem measureBaseline_cases (s : Session) (executor : Evaluator) :
    (∃ x, s.baseline.or (s.timed executor).toOption = some x ∧
      s.measureBaseline executor = ({ s with baseline := some x }, .ok x)) ∨
    ∃ e, s.baseline.or (s.timed executor).toOption = none ∧ s.measureBaseline executor = (s, .error e) := by
  cases hbaseline : s.baseline with
  | some x =>
    refine Or.inl ⟨x, rfl, ?_⟩
    rw [measureBaseline_of_some hbaseline, ← hbaseline]
  | none =>
    rw [measureBaseline_of_none hbaseline]
    cases s.timed executor with
    | ok x => exact Or.inl ⟨x, rfl, rfl⟩
    | error e => exact Or.inr ⟨e, rfl, rfl⟩

theorem explore_cases (s : Session) (evaluator executor : Evaluator) :
    (∃ e, s.baseline.or (s.timed executor).toOption = none ∧ s.explore evaluator executor = (s, .error e)) ∨
    ∃ x, s.baseline.or (s.timed executor).toOption = some x ∧
      ((∃ r, s.found evaluator = .ok r ∧ s.explore evaluator executor =
        ({ s with baseline := some x, searched := r, report := some (s.reportOf evaluator x r) },
          .ok (s.reportOf evaluator x r))) ∨
      ∃ e, s.found evaluator = .error e ∧ s.explore evaluator executor =
        ({ s with baseline := some x, searched := {} }, Outcome.mapRefusal .search (.error e))) := by
  rcases measureBaseline_cases s executor with ⟨x, hx, hmeasured⟩ | ⟨e, hnone, hmeasured⟩
  · refine Or.inr ⟨x, hx, ?_⟩
    have hfound : (do let n ← Nest.initial s.context
                      s.method.search s.context s.config n evaluator s.draws s.searched) = s.found evaluator := rfl
    rw [explore, hmeasured]
    simp only [hfound]
    cases s.found evaluator with
    | ok r => exact Or.inl ⟨r, rfl, rfl⟩
    | error e => exact Or.inr ⟨e, rfl, rfl⟩
  · refine Or.inl ⟨e, hnone, ?_⟩
    rw [explore, hmeasured]

theorem exists_best {s : Session} {evaluator : Evaluator} {r : State} (h : s.found evaluator = .ok r) :
    ∃ n, r.best = some n := by
  obtain ⟨initial, -, h⟩ := bind_eq_ok.1 h
  obtain ⟨first, asked, -, -, hledger⟩ := SearchMethod.ledger_of_search h
  obtain ⟨n, -, hn, -⟩ := hledger.best
  exact ⟨n, hn⟩

theorem cannotBegin_of_refuse {s : Session} {evaluator : Evaluator} {e : SearchError}
    (h : s.found evaluator = Outcome.refuse e) : s.CannotBegin evaluator := by
  rcases bind_eq_error.1 h with h | ⟨initial, hinitial, h⟩
  · obtain ⟨f, -, hf⟩ := lift_eq_error.1 h
    cases hf
  · rw [SearchMethod.search_eq] at h
    rcases bind_eq_error.1 h with h | ⟨first, -, h⟩
    · obtain ⟨-, err, herr⟩ := price_eq_refuse h
      exact ⟨initial, err, lift_eq_ok.1 hinitial, herr⟩
    · obtain ⟨f, -, hf⟩ := lift_eq_error.1 h
      cases hf

theorem step_of_refuse {t : Session} {c : Call} {e : SessionError} (h : (t.step c).2 = Outcome.refuse e) :
    (t.step c).1 = { t with baseline := (t.step c).1.baseline } ∨
    (t.step c).1 = { t with baseline := (t.step c).1.baseline, searched := {} } ∧
      ∃ evaluator executor, c = .explore evaluator executor ∧ t.CannotBegin evaluator := by
  cases c with
  | measure executor =>
    left
    rcases measureBaseline_cases t executor with ⟨x, -, hmeasured⟩ | ⟨e, -, hmeasured⟩ <;> rw [step, hmeasured]
  | run executor => exact Or.inl rfl
  | explore evaluator executor =>
    rcases explore_cases t evaluator executor with
      ⟨e, -, hexplored⟩ | ⟨x, -, ⟨r, -, hexplored⟩ | ⟨failure, hfailed, hexplored⟩⟩ <;>
      rw [step, hexplored] at h ⊢
    · exact Or.inl rfl
    · cases h
    · refine Or.inr ⟨rfl, evaluator, executor, rfl, ?_⟩
      cases failure with
      | fault f => cases h
      | refused e => exact cannotBegin_of_refuse hfailed

end Step

/-- What is known of a session behind these calls. -/
structure Consistent (s : Session) (calls : List Call) (t : Session) : Prop where
  setup : SameSetup t s
  baseline : t.baseline = calls.findSome? (Call.baseline? s)
  report : ∀ r, t.report = some r → (∃ n, t.searched.best = some n ∧ n.applied = r.bestSchedule) ∨
    t.searched = {} ∧ ∃ evaluator executor, .explore evaluator executor ∈ calls ∧ s.CannotBegin evaluator

theorem SameSetup.timed_eq {s t : Session} (h : SameSetup t s) (executor : Evaluator) :
    t.timed executor = s.timed executor := by rw [timed, timed, h.context]

theorem SameSetup.cannotBegin {s t : Session} (h : SameSetup t s) {evaluator : Evaluator}
    (hcannot : t.CannotBegin evaluator) : s.CannotBegin evaluator := by
  rw [CannotBegin, ← h.context]
  exact hcannot

namespace Consistent

variable {s t : Session} {calls : List Call} (h : Consistent s calls t)
include h

theorem baseline_snoc (c : Call) : (calls ++ [c]).findSome? (Call.baseline? s) = t.baseline.or (c.baseline? s) := by
  rw [List.findSome?_append, ← h.baseline]
  simp

theorem later {u : Session} {c : Call} (hsetup : SameSetup u t) (hbaseline : u.baseline = t.baseline.or (c.baseline? s))
    (hreport : u.report = t.report) (hsearched : u.searched = t.searched) : Consistent s (calls ++ [c]) u where
  setup := hsetup.trans h.setup
  baseline := by rw [h.baseline_snoc, hbaseline]
  report r hr := by
    rw [hsearched]
    rw [hreport] at hr
    rcases h.report r hr with hbest | ⟨hempty, evaluator, executor, hmem, hcannot⟩
    · exact Or.inl hbest
    · exact Or.inr ⟨hempty, evaluator, executor, List.mem_append_left _ hmem, hcannot⟩

theorem step {c : Call} (hreturned : ∀ f, (t.step c).2 ≠ .error (.fault f)) :
    Consistent s (calls ++ [c]) (t.step c).1 := by
  cases c with
  | measure executor =>
    have hbaseline : Call.baseline? s (.measure executor) = (t.timed executor).toOption := by
      rw [Call.baseline?, h.setup.timed_eq]
    rcases measureBaseline_cases t executor with ⟨x, hx, hmeasured⟩ | ⟨e, hnone, hmeasured⟩ <;>
      simp only [Session.step, hmeasured]
    · exact h.later ⟨rfl, rfl, rfl, rfl⟩ (by rw [hbaseline, hx]) rfl rfl
    · exact h.later ⟨rfl, rfl, rfl, rfl⟩ (by rw [hbaseline, hnone]; exact (Option.or_eq_none_iff.1 hnone).1) rfl rfl
  | run executor => exact h.later ⟨rfl, rfl, rfl, rfl⟩ (by simp [Call.baseline?, Session.step]) rfl rfl
  | explore evaluator executor =>
    have hbaseline : Call.baseline? s (.explore evaluator executor) = (t.timed executor).toOption := by
      rw [Call.baseline?, h.setup.timed_eq]
    rcases explore_cases t evaluator executor with
      ⟨e, hnone, hexplored⟩ | ⟨x, hx, ⟨r, hfound, hexplored⟩ | ⟨failure, hfailed, hexplored⟩⟩ <;>
      simp only [Session.step, hexplored] at hreturned ⊢
    · exact h.later ⟨rfl, rfl, rfl, rfl⟩ (by rw [hbaseline, hnone]; exact (Option.or_eq_none_iff.1 hnone).1) rfl rfl
    · refine ⟨⟨h.setup.context, h.setup.method, h.setup.config, h.setup.draws⟩,
        by rw [h.baseline_snoc, hbaseline, hx], fun report hreport => Or.inl ?_⟩
      obtain ⟨n, hn⟩ := exists_best hfound
      cases hreport
      exact ⟨n, hn, by simp only [reportOf, hn]⟩
    · refine ⟨⟨h.setup.context, h.setup.method, h.setup.config, h.setup.draws⟩,
        by rw [h.baseline_snoc, hbaseline, hx], fun report _ => Or.inr ⟨rfl, evaluator, executor, ?_⟩⟩
      -- a search that was refused leaves the report of before, and a fault is no return
      cases failure with
      | fault f => exact absurd rfl (hreturned f)
      | refused e =>
        exact ⟨List.mem_append_right _ List.mem_cons_self, h.setup.cannotBegin (cannotBegin_of_refuse hfailed)⟩

end Consistent

def fresh (context : Context) (method : SearchMethod) (config : SearchParameters) (draws : Draws) (style : TableStyle) :
    Session :=
  { context, method, config, draws, style }

section Calls

variable {context : Context} {method : SearchMethod} {config : SearchParameters} {draws : Draws} {style : TableStyle}

theorem consistent_of_after {t : Session} {calls : List Call}
    (h : After (fresh context method config draws style) calls t) :
    Consistent (fresh context method config draws style) calls t := by
  induction h with
  | start => exact ⟨⟨rfl, rfl, rfl, rfl⟩, rfl, nofun⟩
  | call h c hreturned ih => exact ih.step hreturned

theorem runBest_of_best {t : Session} {r : SearchSummary} {n : Nest} (hr : t.report = some r)
    (hn : t.searched.best = some n) (executor : Evaluator) :
    t.runBest executor ≠ Outcome.refuse .noSearchPerformed ∧ ∀ b, t.runBest executor = .ok b → b.nest = n := by
  have hrun : t.runBest executor = (do
      let printed ← n.tableText t.context.program t.style
      let executionTime ← (executor.evaluate n).mapRefusal .bestScheduleFailed
      return { nest := n, printed, executionTime, speedup := r.baselineTime / executionTime }) := by
    rw [runBest, hr, hn]
    rfl
  rw [hrun]
  constructor
  · intro h
    rcases bind_eq_error.1 h with h | ⟨printed, -, h⟩
    · obtain ⟨f, -, hf⟩ := lift_eq_error.1 h
      cases hf
    · rcases bind_eq_error.1 h with h | ⟨executionTime, -, h⟩
      · obtain ⟨e, -, he⟩ := Outcome.mapRefusal_eq_refuse.1 h
        cases he
      · cases h
  · intro b h
    obtain ⟨printed, -, h⟩ := bind_eq_ok.1 h
    obtain ⟨executionTime, -, h⟩ := bind_eq_ok.1 h
    cases h
    rfl

theorem runBest_of_nothing {t : Session} (h : t.searched = {}) (executor : Evaluator) :
    t.runBest executor = Outcome.refuse .noSearchPerformed := by
  rw [runBest, h]
  cases t.report with
  | none => rfl
  | some r => rfl

/-- Whatever is called, the baseline is the first time that an executor gave to the initial nest, and no executor is
asked for it again. A call that returns an error leaves the report alone, and it leaves the best nest alone unless it
is a search whose evaluator has no cost for the initial nest: then nothing that was searched is left, and there is
nothing to run. Otherwise what is reported is what is run. -/
theorem calls_consistent {t : Session} {calls : List Call}
    (h : After (fresh context method config draws style) calls t) :
    (t.baseline = calls.findSome? (Call.baseline? (fresh context method config draws style)) ∧
      ∀ x, t.baseline = some x → ∀ evaluator executor executor', t.measureBaseline executor = (t, .ok x) ∧
        t.explore evaluator executor = t.explore evaluator executor') ∧
    (∀ c e, (t.step c).2 = Outcome.refuse e → (t.step c).1.report = t.report ∧
      ((∀ executor, (t.step c).1.runBest executor = t.runBest executor) ∨
        ((t.step c).1.searched = {} ∧
          ∀ executor, (t.step c).1.runBest executor = Outcome.refuse .noSearchPerformed) ∧
        ∃ evaluator executor, c = .explore evaluator executor ∧
          (fresh context method config draws style).CannotBegin evaluator)) ∧
    ∀ r, t.report = some r →
      (∃ n, t.searched.best = some n ∧ n.applied = r.bestSchedule ∧ ∀ executor,
        t.runBest executor ≠ Outcome.refuse .noSearchPerformed ∧ ∀ b, t.runBest executor = .ok b → b.nest = n) ∨
      t.searched = {} ∧ (∀ executor, t.runBest executor = Outcome.refuse .noSearchPerformed) ∧
        ∃ evaluator executor, .explore evaluator executor ∈ calls ∧
          (fresh context method config draws style).CannotBegin evaluator := by
  have hconsistent := consistent_of_after h
  refine ⟨⟨hconsistent.baseline, fun x hx evaluator executor executor' => ?_⟩, fun c e hc => ?_, fun r hr => ?_⟩
  · refine ⟨measureBaseline_of_some hx executor, ?_⟩
    rw [explore, explore, measureBaseline_of_some hx, measureBaseline_of_some hx]
  · rcases step_of_refuse hc with hsame | ⟨hlost, evaluator, executor, rfl, hcannot⟩
    · rw [hsame]
      exact ⟨rfl, Or.inl fun _ => rfl⟩
    · have hnothing : (t.step (.explore evaluator executor)).1.searched = {} := by rw [hlost]
      refine ⟨by rw [hlost], Or.inr ⟨⟨hnothing, runBest_of_nothing hnothing⟩, evaluator, executor, rfl, ?_⟩⟩
      exact hconsistent.setup.cannotBegin hcannot
  · rcases hconsistent.report r hr with ⟨n, hn, happlied⟩ | ⟨hnothing, hfailed⟩
    · exact Or.inl ⟨n, hn, happlied, runBest_of_best hr hn⟩
    · exact Or.inr ⟨hnothing, runBest_of_nothing hnothing, hfailed⟩

end Calls

end Session

namespace ProducerConsumer

open Session

def idle : Session := fresh (Context.ofProgram program) .greedy { maxDepth := 0 } (seeded 0) .full

def failing : Evaluator where
  name := "failing"
  evaluate _ := Outcome.refuse (.internal "no backend")

def searches : List Call := [.explore (.constant 1.0) (.constant 2.0)]

theorem after_searches : ∃ t r, After idle searches t ∧ t.report = some r :=
  ⟨_, _, .call .start _ nofun, rfl⟩

theorem not_cannotBegin (x : Float) : ¬ idle.CannotBegin (.constant x) := by
  rintro ⟨n, err, -, h⟩
  cases h

/-- The second search begins in vain: the report of the first one stays, but its best nest is gone. -/
theorem failed_search_forgets_best : ∃ t r, After idle (searches ++ [.explore failing (.constant 2.0)]) t ∧
    t.report = some r ∧ ∀ executor, t.runBest executor = Outcome.refuse .noSearchPerformed := by
  have hfirst : After idle searches (idle.step (.explore (.constant 1.0) (.constant 2.0))).1 := .call .start _ nofun
  refine ⟨_, _, .call hfirst _ fun f hf => ?_, rfl, fun _ => rfl⟩
  cases hf

end ProducerConsumer

open ProducerConsumer in
theorem Session.calls_consistent_producerConsumer : ∃ t r n, After idle searches t ∧ t.report = some r ∧
    t.searched.best = some n ∧ n.applied = r.bestSchedule ∧
    ∀ executor, t.runBest executor ≠ Outcome.refuse .noSearchPerformed := by
  obtain ⟨t, r, h, hr⟩ := after_searches
  obtain ⟨-, -, hpaired⟩ := calls_consistent h
  rcases hpaired r hr with ⟨n, hn, happlied, hrun⟩ | ⟨-, -, evaluator, executor, hmem, hcannot⟩
  · exact ⟨t, r, n, h, hr, hn, happlied, fun executor => (hrun executor).1⟩
  · cases List.mem_singleton.1 hmem
    exact absurd hcannot (not_cannotBegin 1.0)

end LoopNest
