import LoopNest.Proofs.Nest.Derivable
import LoopNest.Proofs.Search.Rounds

namespace LoopNest.Search

variable {c : Context} {cfg : SearchParameters} {e : Evaluator} {draws : Draws} {initial : Nest} {keys : Finset String}
  {s s' : State}

def Found (c : Context) (initial n : Nest) : Prop := ∃ m x, Derives c initial m ∧ n = { m with cost := x }

theorem Found.derives {n m : Nest} (hn : Found c initial n) {ts : List Transformation} {t : Transformation}
    (hts : n.candidates c = .ok ts) (ht : t ∈ ts) (hderive : n.derive c t = .ok m) : Derives c initial m := by
  obtain ⟨n', x, hn', rfl⟩ := hn
  exact hn'.next hts ht hderive

theorem found_of_mem_scored {ns : List Nest} (hns : ∀ n ∈ ns, Derives c initial n) :
    ∀ n ∈ e.scored ns, Found c initial n := by
  intro n hn
  obtain ⟨m, hm, x, rfl⟩ := exists_of_mem_scored hn
  exact ⟨m, some x, hns m hm, rfl⟩

def unseen (keys : Finset String) (s : State) : Nat := (keys.filter (· ∉ s.seen)).card

theorem unseen_insert {key : String} (hkey : key ∈ keys) (hnew : key ∉ s.seen) :
    unseen keys { s with seen := s.seen.insert key } + 1 = unseen keys s := by
  have herase : keys.filter (· ∉ s.seen.insert key) = (keys.filter (· ∉ s.seen)).erase key := by
    ext other
    simp only [Finset.mem_filter, Finset.mem_erase, Std.HashSet.mem_insert, beq_iff_eq, not_or, ne_comm]
    tauto
  rw [unseen, unseen, herase]
  exact Finset.card_erase_add_one (Finset.mem_filter.2 ⟨hkey, hnew⟩)

def Lists (c : Context) (cfg : SearchParameters) (initial : Nest) (keys : Finset String) : Prop :=
  ∀ n, Derives c initial n → n.depth ≤ cfg.maxDepth → ∀ key, n.structureText c = .ok key → key ∈ keys

section Marking

variable {n : Nest} {ns : List Nest}

theorem unseen_visit (hkeys : ∀ key, n.structureText c = .ok key → key ∈ keys) {isNew : Bool}
    (h : visit c s n = .ok (s', isNew)) : unseen keys s' + (if isNew then 1 else 0) = unseen keys s := by
  obtain ⟨key, hkey, ⟨-, hsame⟩ | ⟨hnew, hnext⟩⟩ := visit_eq_ok h
  · cases hsame
    rfl
  · cases hnext
    exact unseen_insert (hkeys key hkey) hnew

theorem unseen_visitAll (hkeys : ∀ n ∈ ns, ∀ key, n.structureText c = .ok key → key ∈ keys) {fresh : List Nest}
    (h : visitAll c s ns = .ok (s', fresh)) : unseen keys s' + fresh.length = unseen keys s := by
  induction ns generalizing s fresh with
  | nil =>
    cases h
    rfl
  | cons n ns ih =>
    obtain ⟨isNew, s₁, rest, hvisit, hrest, rfl⟩ := visitAll_cons_eq_ok h
    have hfirst := unseen_visit (hkeys n List.mem_cons_self) hvisit
    have hlater := ih (fun m hm => hkeys m (List.mem_cons_of_mem _ hm)) hrest
    have hlength : (if isNew then [n] else []).length = if isNew then 1 else 0 := by cases isNew <;> rfl
    rw [List.length_append, hlength]
    omega

theorem unseen_score {scored : List Nest} (h : score cfg e s ns = .ok (s', scored)) :
    unseen keys s' = unseen keys s := by
  rw [unseen, unseen, seen_score h]

theorem unseen_scoreNeighbors (hkeys : Lists c cfg initial keys) (hn : Found c initial n) {scored : List Nest}
    (h : scoreNeighbors c cfg e s n = .ok (s', scored)) :
    unseen keys s' + scored.length ≤ unseen keys s ∧ ∀ m ∈ scored, Found c initial m := by
  unfold scoreNeighbors at h
  split at h
  · cases h
    exact ⟨Nat.le_refl _, nofun⟩
  · next hgo =>
    have hdepth : n.depth < cfg.maxDepth := by
      simp only [Bool.or_eq_true, decide_eq_true_eq, not_or, Nat.not_le] at hgo
      exact hgo.1
    obtain ⟨neighbors, hneighbors, h⟩ := bind_eq_ok.1 h
    obtain ⟨⟨s₁, fresh⟩, hfresh, hscore⟩ := bind_eq_ok.1 h
    have hderives : ∀ m ∈ neighbors, Derives c initial m ∧ m.depth ≤ cfg.maxDepth := by
      intro m hm
      obtain ⟨ts, hts, t, ht, hderive⟩ := Nest.mem_neighbors hneighbors hm
      refine ⟨hn.derives hts ht hderive, ?_⟩
      rw [Nest.depth_derive hderive]
      omega
    have hmarked : unseen keys s₁ + fresh.length = unseen keys s :=
      unseen_visitAll (fun m hm => hkeys m (hderives m hm).1 (hderives m hm).2) hfresh
    have hsame : unseen keys s' = unseen keys s₁ := unseen_score hscore
    obtain ⟨-, -, -, rfl⟩ := scores_of_score hscore
    constructor
    · have hscored : (e.scored (fresh.take (cfg.maxExplored - s₁.explored))).length ≤ fresh.length :=
        (List.length_filterMap_le _ _).trans (List.length_take_le' _ _)
      omega
    · apply found_of_mem_scored
      intro m hm
      exact (hderives m ((marks_of_visitAll hfresh).fresh m (List.mem_of_mem_take hm))).1

end Marking

section Breeding

theorem unseen_firstUnseen (hkeys : Lists c cfg initial keys) {parent : Nest} (hparent : Found c initial parent)
    (hdepth : parent.depth < cfg.maxDepth) {candidates ts : List Transformation}
    (hcandidates : parent.candidates c = .ok candidates) (hts : ∀ t ∈ ts, t ∈ candidates) {child : Option Nest}
    (h : firstUnseen c parent s ts = .ok (s', child)) :
    unseen keys s' + child.toList.length = unseen keys s ∧ ∀ m ∈ child.toList, Derives c initial m := by
  induction ts generalizing s with
  | nil =>
    cases h
    exact ⟨rfl, nofun⟩
  | cons t ts ih =>
    obtain ⟨derived, hderive, h⟩ := bind_eq_ok.1 h
    have hlater := ih (s := s) fun u hu => hts u (List.mem_cons_of_mem _ hu)
    cases derived with
    | none => exact hlater h
    | some m =>
      have hm := Nest.derive?_eq_some hderive
      have hfound := hparent.derives hcandidates (hts t List.mem_cons_self) hm
      have hlimit : m.depth ≤ cfg.maxDepth := by
        rw [Nest.depth_derive hm]
        omega
      obtain ⟨⟨s₁, isNew⟩, hvisit, h⟩ := bind_eq_ok.1 h
      have hmarked := unseen_visit (hkeys m hfound hlimit) hvisit
      -- a structure that was marked before is passed over, and the first new one is the child
      cases isNew with
      | false =>
        obtain ⟨hrest, hchild⟩ := ih (fun u hu => hts u (List.mem_cons_of_mem _ hu)) h
        exact ⟨hrest.trans hmarked, hchild⟩
      | true =>
        cases h
        refine ⟨hmarked, fun m' hm' => ?_⟩
        cases List.mem_singleton.1 hm'
        exact hfound

theorem unseen_breed (hkeys : Lists c cfg initial keys) {m m' : Brood} {parent : Nest}
    (hparent : Found c initial parent) (hchildren : ∀ n ∈ m.children, Derives c initial n)
    (h : breed c cfg draws m parent = .ok m') :
    unseen keys m'.state + m'.children.length = unseen keys m.state + m.children.length ∧
      ∀ n ∈ m'.children, Derives c initial n := by
  unfold breed at h
  split at h
  · cases h
    exact ⟨rfl, hchildren⟩
  · next hdepth =>
    obtain ⟨candidates, hcandidates, h⟩ := bind_eq_ok.1 h
    obtain ⟨⟨s', child⟩, hchild, h⟩ := bind_eq_ok.1 h
    cases h
    obtain ⟨hmarked, hfound⟩ := unseen_firstUnseen hkeys hparent (Nat.not_le.1 hdepth) hcandidates
      (fun t ht => (shuffleFrom_perm draws _ _ _).mem_iff.1 (List.mem_of_mem_take ht)) hchild
    constructor
    · rw [← hmarked]
      simp only [List.length_append]
      omega
    · exact fun n hn => (List.mem_append.1 hn).elim (hchildren n) (hfound n)

theorem unseen_breedAll (hkeys : Lists c cfg initial keys) {m m' : Brood} {parents : List Nest}
    (hparents : ∀ n ∈ parents, Found c initial n) (hchildren : ∀ n ∈ m.children, Derives c initial n)
    (h : breedAll c cfg draws m parents = .ok m') :
    unseen keys m'.state + m'.children.length = unseen keys m.state + m.children.length ∧
      ∀ n ∈ m'.children, Derives c initial n := by
  induction parents generalizing m with
  | nil =>
    cases h
    exact ⟨rfl, hchildren⟩
  | cons parent parents ih =>
    obtain ⟨m₁, hbreed, h⟩ := bind_eq_ok.1 h
    obtain ⟨hfirst, hnext⟩ := unseen_breed hkeys (hparents parent List.mem_cons_self) hchildren hbreed
    obtain ⟨hrest, hlast⟩ := ih (fun n hn => hparents n (List.mem_cons_of_mem _ hn)) hnext h
    exact ⟨hrest.trans hfirst, hlast⟩

end Breeding

section Rounds

theorem depthFirstRound_again (hkeys : Lists c cfg initial keys) {x y : State × List Nest}
    (hx : ∀ n ∈ x.2, Found c initial n) (h : depthFirstRound c cfg e x = .ok (.again y)) :
    (∀ n ∈ y.2, Found c initial n) ∧ unseen keys y.1 + y.2.length < unseen keys x.1 + x.2.length := by
  rcases x with ⟨s, _ | ⟨n, stack⟩⟩
  · cases h
  · rw [depthFirstRound] at h
    split at h
    · cases h
    · obtain ⟨⟨s', children⟩, hchildren, h⟩ := bind_eq_ok.1 h
      cases h
      obtain ⟨hless, hfound⟩ := unseen_scoreNeighbors hkeys (hx n List.mem_cons_self) hchildren
      constructor
      · exact fun m hm => (List.mem_append.1 hm).elim (hfound m) fun hm => hx m (List.mem_cons_of_mem _ hm)
      · simp only [List.length_append, List.length_cons]
        omega

theorem generationRound_again (hkeys : Lists c cfg initial keys) {x y : Generation}
    (hx : ∀ n ∈ x.population, Found c initial n) (h : generationRound c cfg e draws x = .ok (.again y)) :
    (∀ n ∈ y.population, Found c initial n) ∧ unseen keys y.state < unseen keys x.state := by
  obtain ⟨m, scored, -, hbreed, hsome, hscore, hpopulation⟩ := generationRound_eq_again h
  obtain ⟨hless, hfound⟩ := unseen_breedAll hkeys hx (m := ⟨x.state, x.next, []⟩) nofun hbreed
  constructor
  · obtain ⟨-, -, -, rfl⟩ := scores_of_score hscore
    rw [hpopulation]
    intro n hn
    have hn := List.mem_mergeSort.1 (List.mem_of_mem_take hn)
    exact (List.mem_append.1 hn).elim (hx n) fun hn =>
      found_of_mem_scored (fun m hm => hfound m (List.mem_of_mem_take hm)) n hn
  · rw [unseen_score hscore]
    have hpos := List.length_pos_iff.2 hsome
    simp only [List.length_nil] at hless
    omega

variable {first : Nest}

theorem depthFirst_ends (hkeys : Lists c cfg initial keys) (hfirst : Found c initial first) :
    ∃ rounds ≤ unseen keys s + 2, ∃ r, (SearchMethod.exhaustive.loop draws c cfg first s e).Ends rounds
      (s, [first]) r :=
  Loop.exists_ends (l := SearchMethod.exhaustive.loop draws c cfg first s e) (fun x => ∀ n ∈ x.2, Found c initial n)
    (fun x => unseen keys x.1 + x.2.length) (fun _ _ hx h => depthFirstRound_again hkeys hx h) (s, [first])
    fun _ hn => List.mem_singleton.1 hn ▸ hfirst

theorem beam_ends : ∃ rounds ≤ cfg.maxDepth + 1, ∃ r, (SearchMethod.beam.loop draws c cfg first s e).Ends rounds
    ⟨0, s, [first], first.costOrInfinity, 0⟩ r := by
  refine Loop.exists_ends (l := SearchMethod.beam.loop draws c cfg first s e) (fun _ => True)
    (fun x => cfg.maxDepth - x.level) (fun x y _ h => ?_) ⟨0, s, [first], first.costOrInfinity, 0⟩ trivial
  obtain ⟨hroom, hnext, -⟩ := beamRound_eq_again h
  exact ⟨trivial, by omega⟩

theorem climb_ends : ∃ rounds ≤ cfg.maxDepth - first.depth + 1, ∃ r,
    (SearchMethod.greedy.loop draws c cfg first s e).Ends rounds (s, first) r := by
  refine Loop.exists_ends (l := SearchMethod.greedy.loop draws c cfg first s e) (fun _ => True)
    (fun x => cfg.maxDepth - x.2.depth) (fun x y _ h => ?_) (s, first) trivial
  obtain ⟨hroom, hnext⟩ := depth_of_climbRound h
  exact ⟨trivial, by omega⟩

theorem generations_end (hkeys : Lists c cfg initial keys) (hfirst : Found c initial first) :
    ∃ rounds ≤ unseen keys s + 1, ∃ r, (SearchMethod.randomized.loop draws c cfg first s e).Ends rounds
      ⟨s, 0, [first], first.costOrInfinity, 0⟩ r :=
  Loop.exists_ends (l := SearchMethod.randomized.loop draws c cfg first s e)
    (fun x => ∀ n ∈ x.population, Found c initial n) (fun x => unseen keys x.state)
    (fun _ _ hx h => generationRound_again hkeys hx h) ⟨s, 0, [first], first.costOrInfinity, 0⟩
    fun _ hn => List.mem_singleton.1 hn ▸ hfirst

theorem exists_ends (m : SearchMethod) (draws : Draws) (e : Evaluator) (s : State) (hkeys : Lists c cfg initial keys)
    (hfirst : Found c initial first) :
    ∃ rounds ≤ keys.card + cfg.maxDepth + 2, ∃ r,
      (m.loop draws c cfg first s e).Ends rounds (m.loop draws c cfg first s e).start r := by
  have hcard : unseen keys s ≤ keys.card := Finset.card_filter_le _ _
  cases m with
  | exhaustive =>
    obtain ⟨rounds, hrounds, hends⟩ := depthFirst_ends hkeys hfirst
    exact ⟨rounds, by omega, hends⟩
  | beam =>
    obtain ⟨rounds, hrounds, hends⟩ := beam_ends
    exact ⟨rounds, by omega, hends⟩
  | greedy =>
    obtain ⟨rounds, hrounds, hends⟩ := climb_ends
    exact ⟨rounds, by omega, hends⟩
  | randomized =>
    obtain ⟨rounds, hrounds, hends⟩ := generations_end hkeys hfirst
    exact ⟨rounds, by omega, hends⟩

end Rounds

end LoopNest.Search

namespace LoopNest

open Search

/-- Whatever the method, the evaluator, the random numbers and the budgets, the search of a nest ends, in what the
bounded search computes; the nest and the depth limit alone bound the rounds. -/
theorem search_terminates (c : Context) (initial : Nest) (maxDepth : Nat) : ∃ bound, ∀ (m : SearchMethod)
    (draws : Draws) (cfg : SearchParameters) (e : Evaluator) (first : Nest) (s : State), cfg.maxDepth = maxDepth →
    price initial e = .ok first → enter c first = .ok s →
    ∃ rounds ≤ bound, (m.loop draws c cfg first s e).Ends rounds (m.loop draws c cfg first s e).start
      (m.continueWith draws c cfg first s e) := by
  obtain ⟨keys, hkeys⟩ := Derives.exists_structures c initial maxDepth
  refine ⟨keys.card + maxDepth + 2, fun m draws cfg e first s hdepth hfirst _ => ?_⟩
  subst hdepth
  obtain ⟨x, hsame, -⟩ := price_eq_ok hfirst
  obtain ⟨rounds, hrounds, r, hends⟩ := exists_ends m draws e s hkeys
    ⟨initial, some x, .start, hsame⟩
  rw [SearchMethod.continueWith_eq_of_ends hends]
  exact ⟨rounds, hrounds, hends⟩

open ProducerConsumer in
theorem search_terminates_producerConsumer : ∃ bound s, enter (Context.ofProgram program) separateNest = .ok s ∧
    ∀ m draws, ∃ rounds ≤ bound, ∃ r,
      (SearchMethod.loop draws m (Context.ofProgram program) onlyFusion separateNest s (.constant 1.0)).Ends rounds
        (SearchMethod.loop draws m (Context.ofProgram program) onlyFusion separateNest s (.constant 1.0)).start r := by
  obtain ⟨bound, hbound⟩ := search_terminates (Context.ofProgram program) { roots := separate } 1
  refine ⟨bound, _, rfl, fun m draws => ?_⟩
  obtain ⟨rounds, hrounds, hends⟩ := hbound m draws onlyFusion (.constant 1.0) separateNest _ rfl rfl rfl
  exact ⟨rounds, hrounds, _, hends⟩

end LoopNest
