import LoopNest.Proofs.Search.Ledger
import LoopNest.Search.Method

namespace LoopNest.Search

variable {c : Context} {cfg : SearchParameters} {e : Evaluator} {first : Nest} {s : State}

abbrev Balances {α : Type} (c : Context) (cfg : SearchParameters) (e : Evaluator) (first : Nest)
    (pending : List Nest) (s : State) (run : Evaluator → Checked α) (result : α → List Nest × State) : Prop :=
  Triple e (Ledger c cfg e first · pending s) run fun asked a =>
    Ledger c cfg e first asked (result a).1 (result a).2

theorem admissible_derive {n m : Nest} {t : Transformation} (h : n.derive c t = .ok m)
    (hn : ¬ cfg.maxDepth ≤ n.depth) : Admissible c cfg m := by
  refine ⟨(Nest.derive_eq_ok h).2, ?_⟩
  rw [Nest.depth_derive h]
  omega

section Neighbors

variable {n : Nest} {asked neighbors fresh : List Nest} {s₁ : State}

theorem Ledger.visitNeighbors (hl : Ledger c cfg e first asked [] s) (hdepth : ¬ cfg.maxDepth ≤ n.depth)
    (hneighbors : n.neighbors c = .ok neighbors) (hfresh : Search.visitAll c s neighbors = .ok (s₁, fresh)) :
    Ledger c cfg e first asked fresh s₁ := by
  refine hl.visitAll (fun m hm => ?_) hfresh
  obtain ⟨ts, -, t, -, hderive⟩ := Nest.mem_neighbors hneighbors hm
  exact admissible_derive hderive hdepth

structure Opens (c : Context) (cfg : SearchParameters) (e : Evaluator) (first : Nest) (asked : List Nest) (s : State)
    (neighbors more : List Nest) (s' : State) : Prop where
  ledger : Ledger c cfg e first (asked ++ more) [] s'
  before : s'.explored < cfg.maxExplored → s.explored < cfg.maxExplored
  grows : ∀ key ∈ s.seen, key ∈ s'.seen
  seen : ∀ m ∈ neighbors, ∃ key, m.structureText c = .ok key ∧ key ∈ s'.seen
  new : ∀ m ∈ more, m ∈ neighbors

theorem Ledger.opens {scored : List Nest} {s' : State} (hl : Ledger c cfg e first asked [] s)
    (hdepth : ¬ cfg.maxDepth ≤ n.depth) (hneighbors : n.neighbors c = .ok neighbors)
    (hfresh : Search.visitAll c s neighbors = .ok (s₁, fresh)) (hscore : Search.score cfg e s₁ fresh = .ok (s', scored)) :
    Opens c cfg e first asked s neighbors (fresh.take (cfg.maxExplored - s₁.explored)) s' := by
  have hmarks := marks_of_visitAll hfresh
  have hseen := seen_score hscore
  constructor
  · exact (hl.visitNeighbors hdepth hneighbors hfresh).score hscore
  · intro hroom
    rw [← hmarks.explored]
    exact Nat.lt_of_le_of_lt (le_explored_of_score hscore) hroom
  · rw [hseen]
    exact hmarks.grows
  · rw [hseen]
    exact hmarks.seen
  · exact fun m hm => hmarks.fresh m (List.mem_of_mem_take hm)

end Neighbors

theorem score_balances (pending : List Nest) :
    Balances c cfg e first pending s (fun e => score cfg e s pending) fun r => ([], r.1) := by
  rintro asked hl ⟨s', scored⟩ h
  exact ⟨_, asks_score h, hl.score h⟩

theorem scoreNeighbors_balances (s : State) (n : Nest) :
    Balances c cfg e first [] s (fun e => scoreNeighbors c cfg e s n) fun r => ([], r.1) := by
  unfold scoreNeighbors
  refine .ite (fun _ => .pure fun asked hl => hl) fun hgo => ?_
  have hdepth : ¬ cfg.maxDepth ≤ n.depth := by
    simp only [Bool.or_eq_true, decide_eq_true_eq, not_or] at hgo
    exact hgo.1
  refine .after fun neighbors hneighbors => .after fun ⟨s', fresh⟩ hfresh => .weaken ?_ (score_balances fresh)
  exact fun asked hl => hl.visitNeighbors hdepth hneighbors hfresh

theorem exists_derive_of_scoreNeighbors {n m : Nest} {s' : State} {scored : List Nest}
    (h : scoreNeighbors c cfg e s n = .ok (s', scored)) (hm : m ∈ scored) :
    ∃ m' t x, n.derive c t = .ok m' ∧ m = { m' with cost := some x } := by
  unfold scoreNeighbors at h
  split at h
  · cases h
    cases hm
  · obtain ⟨neighbors, hneighbors, h⟩ := bind_eq_ok.1 h
    obtain ⟨⟨s₁, fresh⟩, hfresh, hscore⟩ := bind_eq_ok.1 h
    obtain ⟨-, -, -, rfl⟩ := scores_of_score hscore
    obtain ⟨m', hm', x, hsame⟩ := exists_of_mem_scored hm
    obtain ⟨-, -, t, -, hderive⟩ := Nest.mem_neighbors hneighbors
      ((marks_of_visitAll hfresh).fresh m' (List.mem_of_mem_take hm'))
    exact ⟨m', t, x, hderive, hsame⟩

section DepthFirst

theorem descend_succ {remaining : Nat} {n : Nest} : descend c cfg e (remaining + 1) s n =
    if s.isSpent cfg then .ok s
    else scoreNeighbors c cfg e s n >>= fun r => descendAll c cfg e remaining r.1 r.2 := by
  rw [descend]
  rfl

theorem descendAll_balances {remaining : Nat}
    (hdescend : ∀ s n, Balances c cfg e first [] s (fun e => descend c cfg e remaining s n) fun s' => ([], s'))
    (s : State) (ns : List Nest) :
    Balances c cfg e first [] s (fun e => descendAll c cfg e remaining s ns) fun s' => ([], s') := by
  induction ns generalizing s with
  | nil => exact .congr (.pure fun asked hl => hl) fun e => by rw [descendAll]
  | cons n ns ih => exact .congr (.bind (hdescend s n) ih) fun e => by rw [descendAll]

theorem descend_balances (remaining : Nat) (s : State) (n : Nest) :
    Balances c cfg e first [] s (fun e => descend c cfg e remaining s n) fun s' => ([], s') := by
  induction remaining generalizing s n with
  | zero => exact .congr (.pure fun asked hl => hl) fun e => by rw [descend]
  | succ remaining ih =>
    refine .congr (.ite (fun _ => .pure fun asked hl => hl) fun _ => ?_) fun e => descend_succ
    exact .bind (scoreNeighbors_balances s n) fun r => descendAll_balances ih r.1 r.2

end DepthFirst

theorem climb_balances (remaining : Nat) (s : State) (n : Nest) :
    Balances c cfg e first [] s (fun e => climb c cfg e remaining s n) fun s' => ([], s') := by
  induction remaining generalizing s n with
  | zero => exact .pure fun asked hl => hl
  | succ remaining ih =>
    refine .ite (fun _ => .pure fun asked hl => hl) fun _ => ?_
    refine .bind (scoreNeighbors_balances s n) fun ⟨s', neighbors⟩ => ?_
    dsimp only
    split
    · exact .pure fun asked hl => hl
    · next next _ => exact .ite (fun _ => .pure fun asked hl => hl) fun _ => ih s' next

section Beam

theorem scoreNeighborsOfAll_balances (s : State) (ns : List Nest) :
    Balances c cfg e first [] s (fun e => scoreNeighborsOfAll c cfg e s ns) fun r => ([], r.1) := by
  induction ns generalizing s with
  | nil => exact .pure fun asked hl => hl
  | cons n ns ih =>
    refine .bind (scoreNeighbors_balances s n) fun r => ?_
    exact .bind (ih r.1) fun r' => .pure fun asked hl => hl

theorem beamLevels_balances (levels : Nat) (s : State) (ns : List Nest) (cost : Float) (plateau : Nat) :
    Balances c cfg e first [] s (fun e => beamLevels c cfg e levels s ns cost plateau) fun s' => ([], s') := by
  induction levels generalizing s ns cost plateau with
  | zero => exact .pure fun asked hl => hl
  | succ levels ih =>
    refine .bind (scoreNeighborsOfAll_balances s ns) fun ⟨s', candidates⟩ => ?_
    dsimp only
    split
    · exact .pure fun asked hl => hl
    · refine .ite (fun _ => ih _ _ _ _) fun _ => ?_
      exact .ite (fun _ => .pure fun asked hl => hl) fun _ => ih _ _ _ _

end Beam

section Evolution

variable {draws : Draws}

theorem Ledger.firstUnseen {asked pending : List Nest} (hl : Ledger c cfg e first asked pending s) {parent : Nest}
    (hparent : ¬ cfg.maxDepth ≤ parent.depth) {ts : List Transformation} {s' : State} {child : Option Nest}
    (h : firstUnseen c parent s ts = .ok (s', child)) :
    Ledger c cfg e first asked (pending ++ child.toList) s' := by
  induction ts generalizing s with
  | nil =>
    cases h
    rwa [Option.toList_none, List.append_nil]
  | cons t ts ih =>
    obtain ⟨child', hderive, h⟩ := bind_eq_ok.1 h
    cases child' with
    | none => exact ih hl h
    | some n =>
      obtain ⟨⟨s₁, isNew⟩, hvisit, h⟩ := bind_eq_ok.1 h
      have hnext := hl.visit (admissible_derive (Nest.derive?_eq_some hderive) hparent) hvisit
      cases isNew with
      | false =>
        rw [if_neg Bool.false_ne_true, List.append_nil] at hnext
        exact ih hnext h
      | true =>
        cases h
        exact hnext

theorem Ledger.breed {asked : List Nest} {m m' : Brood} {parent : Nest}
    (hl : Ledger c cfg e first asked m.children m.state) (h : breed c cfg draws m parent = .ok m') :
    Ledger c cfg e first asked m'.children m'.state := by
  unfold Search.breed at h
  split at h
  · cases h
    exact hl
  · next hparent =>
    obtain ⟨candidates, -, h⟩ := bind_eq_ok.1 h
    obtain ⟨⟨s', child⟩, hchild, h⟩ := bind_eq_ok.1 h
    cases h
    exact hl.firstUnseen hparent hchild

theorem Ledger.breedAll {asked : List Nest} {m m' : Brood} {parents : List Nest}
    (hl : Ledger c cfg e first asked m.children m.state) (h : breedAll c cfg draws m parents = .ok m') :
    Ledger c cfg e first asked m'.children m'.state := by
  induction parents generalizing m with
  | nil =>
    cases h
    exact hl
  | cons n ns ih =>
    obtain ⟨m₁, hbreed, h⟩ := bind_eq_ok.1 h
    exact ih (hl.breed hbreed) h

theorem generations_balances (rounds : Nat) (s : State) (next : Nat) (population : List Nest) (cost : Float)
    (plateau : Nat) :
    Balances c cfg e first [] s (fun e => generations c cfg e draws rounds s next population cost plateau)
      fun s' => ([], s') := by
  induction rounds generalizing s next population cost plateau with
  | zero => exact .pure fun asked hl => hl
  | succ rounds ih =>
    refine .ite (fun _ => .pure fun asked hl => hl) fun _ => ?_
    refine .after fun ⟨s', next', offspring⟩ hbreed => .weaken (fun asked hl => hl.breedAll hbreed) ?_
    dsimp only
    refine .ite (fun hnone => .pure fun asked hl => ?_) fun _ => ?_
    · rwa [List.isEmpty_iff.1 hnone] at hl
    · refine .bind (score_balances offspring) fun ⟨s'', scored⟩ => ?_
      dsimp only
      split
      · exact .pure fun asked hl => hl
      · refine .ite (fun _ => ih _ _ _ _ _) fun _ => .after fun limit _ => ?_
        exact .ite (fun _ => .pure fun asked hl => hl) fun _ => ih _ _ _ _ _

theorem generations_of_isSpent (h : s.isSpent cfg) (rounds next : Nat) (population : List Nest) (cost : Float)
    (plateau : Nat) : generations c cfg e draws rounds s next population cost plateau = .ok s := by
  cases rounds with
  | zero => rfl
  | succ rounds =>
    rw [generations, if_pos h]
    rfl

end Evolution

end LoopNest.Search
