import LoopNest.Proofs.Search.Methods

namespace LoopNest.Search

variable {c : Context} {cfg : SearchParameters} {e : Evaluator} {s s' : State} {n : Nest} {scored : List Nest}

theorem bind_congr_ok {ε α β : Type} {x : Except ε α} {f g : α → Except ε β} (h : ∀ a, x = .ok a → f a = g a) :
    x >>= f = x >>= g := by
  cases x with
  | error e => rfl
  | ok a => exact h a rfl

theorem scoreNeighbors_deep (hn : cfg.maxDepth ≤ n.depth) : scoreNeighbors c cfg e s n = .ok (s, []) := by
  unfold scoreNeighbors
  rw [if_pos (by simp [hn])]
  rfl

theorem depth_of_scoreNeighbors (h : scoreNeighbors c cfg e s n = .ok (s', scored)) :
    ∀ m ∈ scored, m.depth = n.depth + 1 := by
  intro m hm
  obtain ⟨m', t, x, hderive, rfl⟩ := exists_derive_of_scoreNeighbors h hm
  change m'.depth = n.depth + 1
  exact Nest.depth_derive hderive

theorem climb_fuel {remaining : Nat} (hn : cfg.maxDepth ≤ n.depth + remaining) (more : Nat) :
    climb c cfg e (remaining + more) s n = climb c cfg e remaining s n := by
  induction remaining generalizing s n with
  | zero =>
    rw [Nat.zero_add, climb]
    cases more with
    | zero => rw [climb]
    | succ more =>
      -- a nest at the depth limit has no neighbours to move to
      rw [climb, scoreNeighbors_deep hn, ok_bind]
      exact ite_self _
  | succ remaining ih =>
    rw [Nat.add_right_comm, climb, climb]
    split
    · rfl
    · apply bind_congr_ok
      rintro ⟨s', neighbors⟩ hneighbors
      dsimp only
      cases hleast : Nest.least? neighbors with
      | none => rfl
      | some next =>
        dsimp only
        split
        · rfl
        · apply ih
          rw [depth_of_scoreNeighbors hneighbors next (Nest.firstLeast_of_least? hleast).mem]
          omega

section Evolution

variable {draws : Draws}

theorem explored_of_firstUnseen {parent : Nest} {ts : List Transformation} {child : Option Nest}
    (h : firstUnseen c parent s ts = .ok (s', child)) : s'.explored = s.explored := by
  induction ts generalizing s with
  | nil =>
    cases h
    rfl
  | cons t ts ih =>
    obtain ⟨child', -, h⟩ := bind_eq_ok.1 h
    cases child' with
    | none => exact ih h
    | some m =>
      obtain ⟨⟨s₁, isNew⟩, hvisit, h⟩ := bind_eq_ok.1 h
      have hsame := (marks_of_visit hvisit).explored
      cases isNew with
      | false => rw [ih h, hsame]
      | true =>
        cases h
        exact hsame

theorem explored_of_breedAll {m m' : Brood} {parents : List Nest} (h : breedAll c cfg draws m parents = .ok m') :
    m'.state.explored = m.state.explored := by
  induction parents generalizing m with
  | nil =>
    cases h
    rfl
  | cons parent parents ih =>
    obtain ⟨m₁, hbreed, h⟩ := bind_eq_ok.1 h
    rw [ih h]
    unfold breed at hbreed
    split at hbreed
    · cases hbreed
      rfl
    · obtain ⟨candidates, -, hbreed⟩ := bind_eq_ok.1 hbreed
      obtain ⟨⟨s', child⟩, hchild, hbreed⟩ := bind_eq_ok.1 hbreed
      cases hbreed
      exact explored_of_firstUnseen hchild

theorem lt_explored_of_score {ns : List Nest} (hns : ns ≠ []) (hroom : s.explored < cfg.maxExplored)
    (h : score cfg e s ns = .ok (s', scored)) : s.explored < s'.explored := by
  obtain ⟨s₁, hscores, rfl, -⟩ := scores_of_score h
  have hpos := List.length_pos_iff.2 hns
  rw [explored_recordRound, hscores.explored, List.length_take]
  omega

theorem generations_fuel {rounds : Nat} (hs : cfg.maxExplored ≤ s.explored + rounds) (more next : Nat)
    (population : List Nest) (cost : Float) (plateau : Nat) :
    generations c cfg e draws (rounds + more) s next population cost plateau =
      generations c cfg e draws rounds s next population cost plateau := by
  induction rounds generalizing s next population cost plateau with
  | zero =>
    have hspent : s.isSpent cfg := by
      simp only [State.isSpent, Bool.or_eq_true, decide_eq_true_eq]
      exact Or.inl (by omega)
    rw [generations_of_isSpent hspent, generations_of_isSpent hspent]
  | succ rounds ih =>
    rw [Nat.add_right_comm, generations, generations]
    split
    · rfl
    · next hgo =>
      have hroom : s.explored < cfg.maxExplored := by
        simp only [State.isSpent, Bool.or_eq_true, decide_eq_true_eq, not_or] at hgo
        omega
      apply bind_congr_ok
      rintro ⟨s₁, next₁, offspring⟩ hbreed
      have hsame : s₁.explored = s.explored := explored_of_breedAll hbreed
      dsimp only
      split
      · rfl
      · next hsome =>
        apply bind_congr_ok
        rintro ⟨s₂, scored⟩ hscore
        -- there is room and there are offspring, so this round pays for itself
        have hmore := lt_explored_of_score (by simpa using hsome) (by omega) hscore
        have hlater : cfg.maxExplored ≤ s₂.explored + rounds := by omega
        dsimp only
        split
        · rfl
        · split
          · exact ih hlater _ _ _ _
          · apply bind_congr_ok
            intro limit _
            split
            · rfl
            · exact ih hlater _ _ _ _

end Evolution

end LoopNest.Search
