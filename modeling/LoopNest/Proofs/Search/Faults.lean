import LoopNest.Proofs.Nest.Faults
import LoopNest.Proofs.Search.Bookkeeping

namespace LoopNest

def Evaluator.Steady (e : Evaluator) : Prop := ∀ n, FailsExpectedly (e.evaluate n)

namespace Search

variable {c : Context} {cfg : SearchParameters} {e : Evaluator} {draws : Draws}

theorem visit_failsOnly (s : State) (n : Nest) : FailsOnlyBy .overflow (visit c s n) := by
  refine (Nest.structureText_failsOnly c n).bind fun key _ => ?_
  split
  · exact .ok _
  · exact .ok _

theorem visitAll_failsOnly (s : State) (ns : List Nest) : FailsOnlyBy .overflow (visitAll c s ns) := by
  induction ns generalizing s with
  | nil => exact .ok _
  | cons n ns ih => exact (visit_failsOnly s n).bind fun _ _ => (ih _).bind fun _ _ => .ok _

theorem scoreEach_failsOnly (he : e.Steady) (s : State) (ns : List Nest) :
    FailsOnlyBy .overflow (scoreEach e s ns) := by
  induction ns generalizing s with
  | nil => exact .ok _
  | cons n ns ih =>
    simp only [scoreEach]
    split
    · next hf => exact .error (he n _ hf)
    · exact ih _
    · exact (ih _).bind fun _ _ => .ok _

theorem score_failsOnly (he : e.Steady) (s : State) (ns : List Nest) : FailsOnlyBy .overflow (score cfg e s ns) :=
  (scoreEach_failsOnly he s _).bind fun _ _ => .ok _

def AllReshaped (p : Program) (ns : List Nest) : Prop := ∀ n ∈ ns, Reshaped p n.roots

theorem AllReshaped.cons {p : Program} {n : Nest} {ns : List Nest} (h : AllReshaped p (n :: ns)) :
    Reshaped p n.roots ∧ AllReshaped p ns := List.forall_mem_cons.1 h

theorem AllReshaped.scored {p : Program} {ns : List Nest} (h : AllReshaped p ns) : AllReshaped p (e.scored ns) := by
  intro n hn
  obtain ⟨m, hm, x, rfl⟩ := exists_of_mem_scored hn
  exact h m hm

section Described

variable {p : Program} {n : Nest}

theorem reshaped_of_derive (hn : Reshaped p n.roots) {m : Nest} {t : Transformation}
    (h : n.derive (Context.ofProgram p) t = .ok m) : Reshaped p m.roots :=
  Reshaped.step t hn (Nest.derive_eq_ok h).1

theorem reshaped_of_scoreNeighbors (hn : Reshaped p n.roots) {s s' : State} {scored : List Nest}
    (h : scoreNeighbors (Context.ofProgram p) cfg e s n = .ok (s', scored)) : AllReshaped p scored := by
  intro m hm
  obtain ⟨m', t, x, hderive, rfl⟩ := exists_derive_of_scoreNeighbors h hm
  change Reshaped p m'.roots
  exact reshaped_of_derive hn hderive

variable {description : Description} (hp : description.build = .ok p) (he : e.Steady)
include hp he

theorem scoreNeighbors_failsOnly (hn : Reshaped p n.roots) (s : State) :
    FailsOnlyBy .overflow (scoreNeighbors (Context.ofProgram p) cfg e s n) := by
  unfold scoreNeighbors
  split
  · exact .ok _
  · exact (Nest.neighbors_failsOnly hp hn).bind fun _ _ => (visitAll_failsOnly s _).bind fun _ _ =>
      score_failsOnly he _ _

omit hp he in
theorem descendAll_failsOnly {remaining : Nat}
    (hdescend : ∀ s n, Reshaped p n.roots → FailsOnlyBy .overflow (descend (Context.ofProgram p) cfg e remaining s n))
    {ns : List Nest} (hns : AllReshaped p ns) (s : State) :
    FailsOnlyBy .overflow (descendAll (Context.ofProgram p) cfg e remaining s ns) := by
  induction ns generalizing s with
  | nil =>
    rw [descendAll]
    exact .ok _
  | cons n ns ih =>
    rw [descendAll]
    exact (hdescend s n hns.cons.1).bind fun _ _ => ih hns.cons.2 _

theorem descend_failsOnly (remaining : Nat) (hn : Reshaped p n.roots) (s : State) :
    FailsOnlyBy .overflow (descend (Context.ofProgram p) cfg e remaining s n) := by
  induction remaining generalizing s n with
  | zero =>
    rw [descend]
    exact .ok _
  | succ remaining ih =>
    rw [descend_succ]
    split
    · exact .ok _
    · exact (scoreNeighbors_failsOnly hp he hn s).bind fun _ h =>
        descendAll_failsOnly (fun s n hn => ih hn s) (reshaped_of_scoreNeighbors hn h) _

theorem climb_failsOnly (remaining : Nat) (hn : Reshaped p n.roots) (s : State) :
    FailsOnlyBy .overflow (climb (Context.ofProgram p) cfg e remaining s n) := by
  induction remaining generalizing s n with
  | zero => exact .ok _
  | succ remaining ih =>
    rw [climb]
    split
    · exact .ok _
    · refine (scoreNeighbors_failsOnly hp he hn s).bind fun ⟨s', neighbors⟩ h => ?_
      dsimp only
      split
      · exact .ok _
      · next next hleast =>
        split
        · exact .ok _
        · exact ih (reshaped_of_scoreNeighbors hn h next (Nest.firstLeast_of_least? hleast).mem) s'

theorem scoreNeighborsOfAll_failsOnly {ns : List Nest} (hns : AllReshaped p ns) (s : State) :
    FailsOnlyBy .overflow (scoreNeighborsOfAll (Context.ofProgram p) cfg e s ns) := by
  induction ns generalizing s with
  | nil => exact .ok _
  | cons n ns ih =>
    exact (scoreNeighbors_failsOnly hp he hns.cons.1 s).bind fun _ _ => (ih hns.cons.2 _).bind fun _ _ => .ok _

omit hp he in
theorem reshaped_of_scoreNeighborsOfAll {ns : List Nest} (hns : AllReshaped p ns) {s s' : State} {scored : List Nest}
    (h : scoreNeighborsOfAll (Context.ofProgram p) cfg e s ns = .ok (s', scored)) : AllReshaped p scored := by
  induction ns generalizing s scored with
  | nil =>
    cases h
    exact nofun
  | cons n ns ih =>
    obtain ⟨⟨s₁, own⟩, hown, h⟩ := bind_eq_ok.1 h
    obtain ⟨⟨s₂, rest⟩, hrest, h⟩ := bind_eq_ok.1 h
    cases h
    intro m hm
    exact (List.mem_append.1 hm).elim (reshaped_of_scoreNeighbors hns.cons.1 hown m) (ih hns.cons.2 hrest m)

theorem beamLevels_failsOnly (levels : Nat) {ns : List Nest} (hns : AllReshaped p ns) (s : State) (cost : Float)
    (plateau : Nat) :
    FailsOnlyBy .overflow (beamLevels (Context.ofProgram p) cfg e levels s ns cost plateau) := by
  induction levels generalizing s ns cost plateau with
  | zero => exact .ok _
  | succ levels ih =>
    refine (scoreNeighborsOfAll_failsOnly hp he hns s).bind fun ⟨s', candidates⟩ h => ?_
    have hkept : AllReshaped p ((Nest.sorted candidates).take (max cfg.beamWidth 1)) := fun m hm =>
      reshaped_of_scoreNeighborsOfAll hns h m (List.mem_mergeSort.1 (List.mem_of_mem_take hm))
    dsimp only
    split
    · exact .ok _
    · next heq =>
      rw [heq] at hkept
      split
      · exact ih hkept _ _ _
      · split
        · exact .ok _
        · exact ih hkept _ _ _

omit he in
theorem firstUnseen_failsOnly (hn : Reshaped p n.roots) (s : State) (ts : List Transformation) :
    FailsOnlyBy .overflow (firstUnseen (Context.ofProgram p) n s ts) := by
  induction ts generalizing s with
  | nil => exact .ok _
  | cons t ts ih =>
    refine (Nest.derive?_failsOnly hp hn t).bind fun child _ => ?_
    cases child with
    | none => exact ih s
    | some m =>
      refine (visit_failsOnly s m).bind fun ⟨s', isNew⟩ _ => ?_
      dsimp only
      split
      · exact .ok _
      · exact ih s'

omit hp he in
theorem reshaped_of_firstUnseen (hn : Reshaped p n.roots) {s s' : State} {ts : List Transformation}
    {child : Option Nest} (h : firstUnseen (Context.ofProgram p) n s ts = .ok (s', child)) :
    AllReshaped p child.toList := by
  induction ts generalizing s with
  | nil =>
    cases h
    exact nofun
  | cons t ts ih =>
    obtain ⟨derived, hderive, h⟩ := bind_eq_ok.1 h
    cases derived with
    | none => exact ih h
    | some m =>
      obtain ⟨⟨s₁, isNew⟩, -, h⟩ := bind_eq_ok.1 h
      cases isNew with
      | false => exact ih h
      | true =>
        cases h
        intro m' hm'
        cases List.mem_singleton.1 hm'
        exact reshaped_of_derive hn (Nest.derive?_eq_some hderive)

omit he in
theorem breed_failsOnly (hn : Reshaped p n.roots) (m : Brood) :
    FailsOnlyBy .overflow (breed (Context.ofProgram p) cfg draws m n) := by
  unfold breed
  split
  · exact .ok _
  · exact (Nest.candidates_failsOnly _ n).bind fun _ _ => (firstUnseen_failsOnly hp hn _ _).bind fun _ _ => .ok _

omit hp he in
theorem reshaped_of_breed (hn : Reshaped p n.roots) {m m' : Brood} (hm : AllReshaped p m.children)
    (h : breed (Context.ofProgram p) cfg draws m n = .ok m') : AllReshaped p m'.children := by
  unfold breed at h
  split at h
  · cases h
    exact hm
  · obtain ⟨candidates, -, h⟩ := bind_eq_ok.1 h
    obtain ⟨⟨s', child⟩, hchild, h⟩ := bind_eq_ok.1 h
    cases h
    exact fun k hk => (List.mem_append.1 hk).elim (hm k) (reshaped_of_firstUnseen hn hchild k)

omit he in
theorem breedAll_failsOnly {ns : List Nest} (hns : AllReshaped p ns) (m : Brood) :
    FailsOnlyBy .overflow (breedAll (Context.ofProgram p) cfg draws m ns) := by
  induction ns generalizing m with
  | nil => exact .ok _
  | cons n ns ih => exact (breed_failsOnly hp hns.cons.1 m).bind fun m' _ => ih hns.cons.2 m'

omit hp he in
theorem reshaped_of_breedAll {ns : List Nest} (hns : AllReshaped p ns) {m m' : Brood}
    (hm : AllReshaped p m.children) (h : breedAll (Context.ofProgram p) cfg draws m ns = .ok m') :
    AllReshaped p m'.children := by
  induction ns generalizing m with
  | nil =>
    cases h
    exact hm
  | cons n ns ih =>
    obtain ⟨m₁, hbreed, h⟩ := bind_eq_ok.1 h
    exact ih hns.cons.2 (reshaped_of_breed hns.cons.1 hm hbreed) h

theorem generations_failsOnly (rounds : Nat) {population : List Nest} (hpopulation : AllReshaped p population)
    (s : State) (next : Nat) (cost : Float) (plateau : Nat) :
    FailsOnlyBy .overflow (generations (Context.ofProgram p) cfg e draws rounds s next population cost plateau) := by
  induction rounds generalizing s next population cost plateau with
  | zero => exact .ok _
  | succ rounds ih =>
    rw [generations]
    split
    · exact .ok _
    · have hnone : AllReshaped p [] := fun m hm => absurd hm List.not_mem_nil
      refine (breedAll_failsOnly hp hpopulation _).bind fun brood hbreed => ?_
      obtain ⟨s', next', offspring⟩ := brood
      have hoffspring : AllReshaped p offspring :=
        reshaped_of_breedAll hpopulation (m := ⟨s, next, []⟩) hnone hbreed
      dsimp only
      split
      · exact .ok _
      · refine (score_failsOnly he s' offspring).bind fun r hscore => ?_
        obtain ⟨s'', scored⟩ := r
        obtain ⟨-, -, -, rfl⟩ := scores_of_score hscore
        -- the next population is sorted out of this one and its offspring
        have hkept (best : Nat) : AllReshaped p ((Nest.sorted (population ++ e.scored
            (offspring.take (cfg.maxExplored - s'.explored)))).take best) := by
          have hscored : AllReshaped p (e.scored (offspring.take (cfg.maxExplored - s'.explored))) :=
            .scored fun m hm => hoffspring m (List.mem_of_mem_take hm)
          intro m hm
          exact (List.mem_append.1 (List.mem_mergeSort.1 (List.mem_of_mem_take hm))).elim (hpopulation m) (hscored m)
        dsimp only
        split
        · exact .ok _
        · split
          · exact ih (hkept _) _ _ _ _
          · have hlimit : FailsOnlyBy .overflow (plateauLimit cfg) := by
              unfold plateauLimit
              dsimp only
              split
              · exact .ok _
              · exact .error rfl
            refine hlimit.bind fun limit _ => ?_
            split
            · exact .ok _
            · exact ih (hkept _) _ _ _ _

theorem continueWith_failsOnly (m : SearchMethod) (hn : Reshaped p n.roots) (s : State) :
    FailsOnlyBy .overflow (m.continueWith draws (Context.ofProgram p) cfg n s e) := by
  have hsingle : AllReshaped p [n] := List.forall_mem_singleton.2 hn
  cases m with
  | exhaustive => exact descend_failsOnly hp he _ hn s
  | beam => exact beamLevels_failsOnly hp he _ hsingle s _ _
  | greedy => exact climb_failsOnly hp he _ hn s
  | randomized => exact generations_failsOnly hp he _ hsingle s _ _ _

end Described

end Search

open Search in
theorem SearchMethod.search_failsExpectedly {description : Description} {p : Program}
    (hp : description.build = .ok p) {e : Evaluator} (he : e.Steady) (m : SearchMethod) (cfg : SearchParameters)
    {initial : Nest} (h : Reshaped p initial.roots) (draws : Draws) (earlier : State) :
    FailsExpectedly (m.search (Context.ofProgram p) cfg initial e draws earlier) := by
  rw [SearchMethod.search_eq]
  have hprice : FailsExpectedly (price initial e) := by
    unfold price
    split
    · exact .ok _
    · exact ((he initial).mapRefusal _).map _
  refine hprice.bind fun first hfirst => .lift ?_
  obtain ⟨x, rfl, -⟩ := price_eq_ok hfirst
  have henter : FailsOnlyBy .overflow (enter (Context.ofProgram p) { initial with cost := some x }) :=
    (Nest.structureText_failsOnly _ _).bind fun _ _ => .ok _
  exact henter.bind fun s _ => continueWith_failsOnly (n := { initial with cost := some x }) hp he m h s

end LoopNest
