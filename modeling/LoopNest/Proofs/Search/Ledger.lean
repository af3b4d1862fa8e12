import LoopNest.Proofs.Nest.Neighbors
import LoopNest.Proofs.Search.Asking
import LoopNest.Proofs.Search.Best

/-!
The books of a search. A ledger describes the state of a search by the nests it has handed to the evaluator
and those it has marked as seen and will hand to it next.
-/

namespace LoopNest

def Evaluator.scored (e : Evaluator) (ns : List Nest) : List Nest :=
  ns.filterMap fun n => (e.evaluate n).toOption.map fun x => { n with cost := some x }

namespace Search

def Admissible (c : Context) (cfg : SearchParameters) (n : Nest) : Prop :=
  c.checkLegal n.roots = .ok () ∧ n.depth ≤ cfg.maxDepth

/-- `first` is the initial nest with its cost. -/
structure Ledger (c : Context) (cfg : SearchParameters) (e : Evaluator) (first : Nest)
    (asked pending : List Nest) (s : State) : Prop where
  priced : first.cost.isSome
  explored : s.explored = 1 + asked.length
  budget : s.explored ≤ max 1 cfg.maxExplored
  discarded : s.discarded = asked.countP fun n => !(e.evaluate n).isOk
  distinct : ((first :: asked ++ pending).map (Nest.structureText c)).Nodup
  marked : ∀ n ∈ first :: asked ++ pending, ∃ key, n.structureText c = .ok key ∧ key ∈ s.seen
  -- once the budget is spent, structures stay marked whose nests are not scored any more
  known : ∀ key ∈ s.seen,
    (∃ n ∈ first :: asked ++ pending, n.structureText c = .ok key) ∨ cfg.maxExplored ≤ s.explored
  admissible : ∀ n ∈ asked ++ pending, Admissible c cfg n
  best : ∃ b x, s.best = some b ∧ b.cost = some x ∧ s.history.back? = some x ∧
    b.FirstLeast (first :: e.scored asked)
  falling : s.history.toList.Pairwise fun x y => totalOrder y ≤ totalOrder x

variable {c : Context} {cfg : SearchParameters} {e : Evaluator} {first : Nest} {s s' : State}
  {asked pending : List Nest} {n : Nest} {ns : List Nest}

section Marking

theorem not_mem_insert_empty {text other : String} (h : text ≠ other) :
    other ∉ (∅ : Std.HashSet String).insert text := by
  intro hmem
  rcases Std.HashSet.mem_insert.1 hmem with hsame | hmem
  · exact h (eq_of_beq hsame)
  · exact Std.HashSet.not_mem_empty hmem

theorem visit_eq_ok {r : State × Bool} (h : visit c s n = .ok r) : ∃ key, n.structureText c = .ok key ∧
    (key ∈ s.seen ∧ r = (s, false) ∨ key ∉ s.seen ∧ r = ({ s with seen := s.seen.insert key }, true)) := by
  obtain ⟨key, hkey, h⟩ := bind_eq_ok.1 h
  refine ⟨key, hkey, ?_⟩
  split at h
  · next hseen =>
    cases h
    exact Or.inl ⟨hseen, rfl⟩
  · next hnew =>
    cases h
    exact Or.inr ⟨hnew, rfl⟩

theorem visitAll_cons_eq_ok {ns fresh : List Nest} (h : visitAll c s (n :: ns) = .ok (s', fresh)) :
    ∃ isNew s₁ rest, visit c s n = .ok (s₁, isNew) ∧ visitAll c s₁ ns = .ok (s', rest) ∧
      fresh = (if isNew then [n] else []) ++ rest := by
  obtain ⟨⟨s₁, isNew⟩, hvisit, h⟩ := bind_eq_ok.1 h
  obtain ⟨⟨s₂, rest⟩, hrest, h⟩ := bind_eq_ok.1 h
  cases h
  refine ⟨isNew, s₁, rest, hvisit, hrest, ?_⟩
  cases isNew <;> rfl

structure Marks (c : Context) (s : State) (ns : List Nest) (s' : State) (fresh : List Nest) : Prop where
  explored : s'.explored = s.explored
  grows : ∀ key ∈ s.seen, key ∈ s'.seen
  seen : ∀ n ∈ ns, ∃ key, n.structureText c = .ok key ∧ key ∈ s'.seen
  fresh : ∀ n ∈ fresh, n ∈ ns

theorem Marks.trans {ms fresh later : List Nest} {s₁ : State} (h : Marks c s ns s₁ fresh)
    (h' : Marks c s₁ ms s' later) : Marks c s (ns ++ ms) s' (fresh ++ later) := by
  refine ⟨h'.explored.trans h.explored, fun key hkey => h'.grows key (h.grows key hkey), ?_, ?_⟩
  · intro n hn
    rcases List.mem_append.1 hn with hn | hn
    · obtain ⟨key, hkey, hseen⟩ := h.seen n hn
      exact ⟨key, hkey, h'.grows key hseen⟩
    · exact h'.seen n hn
  · intro n hn
    exact List.mem_append.2 ((List.mem_append.1 hn).imp (h.fresh n) (h'.fresh n))

theorem marks_of_visit {isNew : Bool} (h : visit c s n = .ok (s', isNew)) :
    Marks c s [n] s' (if isNew then [n] else []) := by
  obtain ⟨key, hkey, ⟨hseen, hsame⟩ | ⟨-, hnext⟩⟩ := visit_eq_ok h
  · cases hsame
    refine ⟨rfl, fun _ hold => hold, fun m hm => ?_, nofun⟩
    cases List.mem_singleton.1 hm
    exact ⟨key, hkey, hseen⟩
  · cases hnext
    refine ⟨rfl, fun _ hold => Std.HashSet.mem_insert.2 (Or.inr hold), fun m hm => ?_, fun _ hm => hm⟩
    cases List.mem_singleton.1 hm
    exact ⟨key, hkey, Std.HashSet.mem_insert_self⟩

theorem marks_of_visitAll {fresh : List Nest} (h : visitAll c s ns = .ok (s', fresh)) : Marks c s ns s' fresh := by
  induction ns generalizing s fresh with
  | nil =>
    cases h
    exact ⟨rfl, fun _ hkey => hkey, nofun, nofun⟩
  | cons n ns ih =>
    obtain ⟨isNew, s₁, rest, hvisit, hrest, rfl⟩ := visitAll_cons_eq_ok h
    exact (marks_of_visit hvisit).trans (ih hrest)

theorem best_of_visitAll {fresh : List Nest} (h : visitAll c s ns = .ok (s', fresh)) : s'.best = s.best := by
  induction ns generalizing s fresh with
  | nil =>
    cases h
    rfl
  | cons n ns ih =>
    obtain ⟨isNew, s₁, rest, hvisit, hrest, -⟩ := visitAll_cons_eq_ok h
    rw [ih hrest]
    obtain ⟨key, -, ⟨-, hsame⟩ | ⟨-, hnext⟩⟩ := visit_eq_ok hvisit
    · cases hsame
      rfl
    · cases hnext
      rfl

namespace Ledger

theorem insert (hl : Ledger c cfg e first asked pending s) (hn : Admissible c cfg n) {key : String}
    (hkey : n.structureText c = .ok key) (hnew : key ∉ s.seen) :
    Ledger c cfg e first asked (pending ++ [n]) { s with seen := s.seen.insert key } := by
  have happend : first :: asked ++ (pending ++ [n]) = (first :: asked ++ pending) ++ [n] := by simp
  have hfree : n.structureText c ∉ (first :: asked ++ pending).map (Nest.structureText c) := by
    intro hmem
    obtain ⟨m, hm, hsame⟩ := List.mem_map.1 hmem
    obtain ⟨key', hkey', hseen⟩ := hl.marked m hm
    rw [hkey', hkey, Except.ok.injEq] at hsame
    exact hnew (hsame ▸ hseen)
  constructor
  · exact hl.priced
  · exact hl.explored
  · exact hl.budget
  · exact hl.discarded
  · rw [happend, List.map_append, List.map_singleton]
    exact List.nodup_append_comm.1 (List.nodup_cons.2 ⟨hfree, hl.distinct⟩)
  · rw [happend]
    intro m hm
    rcases List.mem_append.1 hm with hm | hm
    · obtain ⟨key', hkey', hseen⟩ := hl.marked m hm
      exact ⟨key', hkey', Std.HashSet.mem_insert.2 (Or.inr hseen)⟩
    · cases List.mem_singleton.1 hm
      exact ⟨key, hkey, Std.HashSet.mem_insert_self⟩
  · rw [happend]
    intro key' hkey'
    rcases Std.HashSet.mem_insert.1 hkey' with hsame | hseen
    · cases eq_of_beq hsame
      exact Or.inl ⟨n, by simp, hkey⟩
    · refine (hl.known key' hseen).imp_left ?_
      rintro ⟨m, hm, htext⟩
      exact ⟨m, List.mem_append_left _ hm, htext⟩
  · rw [← List.append_assoc]
    intro m hm
    rcases List.mem_append.1 hm with hm | hm
    · exact hl.admissible m hm
    · cases List.mem_singleton.1 hm
      exact hn
  · exact hl.best
  · exact hl.falling

theorem visit (hl : Ledger c cfg e first asked pending s) (hn : Admissible c cfg n) {isNew : Bool}
    (h : visit c s n = .ok (s', isNew)) :
    Ledger c cfg e first asked (pending ++ if isNew then [n] else []) s' := by
  obtain ⟨key, hkey, ⟨-, hsame⟩ | ⟨hnew, hnext⟩⟩ := visit_eq_ok h
  · cases hsame
    rwa [if_neg Bool.false_ne_true, List.append_nil]
  · cases hnext
    exact hl.insert hn hkey hnew

theorem visitAll (hl : Ledger c cfg e first asked pending s) (hns : ∀ n ∈ ns, Admissible c cfg n)
    {fresh : List Nest} (h : visitAll c s ns = .ok (s', fresh)) :
    Ledger c cfg e first asked (pending ++ fresh) s' := by
  induction ns generalizing s pending fresh with
  | nil =>
    cases h
    rwa [List.append_nil]
  | cons n ns ih =>
    obtain ⟨isNew, s₁, rest, hvisit, hrest, rfl⟩ := visitAll_cons_eq_ok h
    rw [← List.append_assoc]
    exact ih (hl.visit (hns n List.mem_cons_self) hvisit) (fun m hm => hns m (List.mem_cons_of_mem _ hm)) hrest

end Ledger

end Marking

section Scoring

variable {scored : List Nest}

theorem best_consider {b : Nest} (hb : s.best = some b) (n : Nest) :
    (s.consider n).best = some (if (Nest.compare n b).isLT then n else b) := by
  simp only [State.consider, hb]
  split
  · rfl
  · exact hb

theorem consider_eq (s : State) (n : Nest) : s.consider n = { s with best := (s.consider n).best } := by
  unfold State.consider
  split
  · split <;> rfl
  · rfl

theorem explored_consider (s : State) (n : Nest) : (s.consider n).explored = s.explored := by rw [consider_eq]

theorem recordRound_eq (s : State) : s.recordRound = { s with history := s.recordRound.history } := by
  unfold State.recordRound
  split <;> rfl

theorem explored_recordRound (s : State) : s.recordRound.explored = s.explored := by rw [recordRound_eq]

structure Scores (e : Evaluator) (s : State) (ns : List Nest) (s' : State) : Prop where
  explored : s'.explored = s.explored + ns.length
  discarded : s'.discarded = s.discarded + ns.countP fun n => !(e.evaluate n).isOk
  seen : s'.seen = s.seen
  history : s'.history = s.history
  best : ∀ b considered, s.best = some b → b.FirstLeast considered →
    ∃ b', s'.best = some b' ∧ b'.FirstLeast (considered ++ e.scored ns)

theorem scores_of_scoreEach (h : scoreEach e s ns = .ok (s', scored)) :
    Scores e s ns s' ∧ scored = e.scored ns := by
  induction ns generalizing s scored with
  | nil =>
    cases h
    refine ⟨⟨rfl, rfl, rfl, rfl, fun b considered hb hleast => ⟨b, hb, ?_⟩⟩, rfl⟩
    simpa [Evaluator.scored] using hleast
  | cons n ns ih =>
    simp only [scoreEach] at h
    split at h
    · cases h
    · -- a nest whose evaluation is refused counts as explored and as discarded
      next hrefused =>
      obtain ⟨hscores, rfl⟩ := ih h
      have hscored : e.scored (n :: ns) = e.scored ns := by simp [Evaluator.scored, hrefused, Except.toOption]
      refine ⟨⟨?_, ?_, hscores.seen, hscores.history, ?_⟩, hscored.symm⟩
      · rw [hscores.explored, List.length_cons]
        dsimp only
        omega
      · have hfails : (e.evaluate n).isOk = false := by rw [hrefused]; rfl
        rw [hscores.discarded, List.countP_cons, hfails]
        simp only [Bool.not_false, if_true]
        omega
      · rw [hscored]
        exact hscores.best
    · next x hx =>
      obtain ⟨⟨s₁, rest⟩, hrest, h⟩ := bind_eq_ok.1 h
      cases h
      obtain ⟨hscores, rfl⟩ := ih hrest
      have hscored : e.scored (n :: ns) = { n with cost := some x } :: e.scored ns := by
        simp [Evaluator.scored, hx, Except.toOption]
      have hconsider := consider_eq { s with explored := s.explored + 1 } { n with cost := some x }
      refine ⟨⟨?_, ?_, ?_, ?_, ?_⟩, hscored.symm⟩
      · rw [hscores.explored, hconsider, List.length_cons]
        dsimp only
        omega
      · have hok : (e.evaluate n).isOk = true := by rw [hx]; rfl
        rw [hscores.discarded, hconsider, List.countP_cons, hok]
        simp
      · rw [hscores.seen, hconsider]
      · rw [hscores.history, hconsider]
      · intro b considered hb hleast
        rw [hscored]
        have hnext := hscores.best _ _ (best_consider (s := { s with explored := s.explored + 1 }) hb _)
          (hleast.concat { n with cost := some x })
        simpa using hnext

theorem asks_scoreEach (h : scoreEach e s ns = .ok (s', scored)) :
    Asks id (fun e => scoreEach e s ns) e ns (s', scored) := by
  induction ns generalizing s scored with
  | nil => exact .given h
  | cons n ns ih =>
    have hfault : ∀ e' f, e'.evaluate n = .error (.fault f) → scoreEach e' s (n :: ns) = .error (id f) := by
      intro e' f hf
      simp only [scoreEach, hf, id]
    simp only [scoreEach] at h
    split at h
    · cases h
    · next hrefused =>
      refine .cons (fun e' he' => ?_) hfault (ih h)
      rw [hrefused] at he'
      simp only [scoreEach, he']
    · next x hx =>
      obtain ⟨⟨s₁, rest⟩, hrest, h⟩ := bind_eq_ok.1 h
      cases h
      have hlater : Asks id (fun e => scoreEach e ({ s with explored := s.explored + 1 }.consider
          { n with cost := some x }) ns >>= fun r => pure (r.1, { n with cost := some x } :: r.2)) e ns
          (s₁, { n with cost := some x } :: rest) := (ih hrest).bindGiven rfl
      refine .cons (fun e' he' => ?_) hfault hlater
      rw [hx] at he'
      simp only [scoreEach, he']

theorem scored_append (e : Evaluator) (ns ms : List Nest) :
    e.scored (ns ++ ms) = e.scored ns ++ e.scored ms := List.filterMap_append

theorem mem_scored_iff : n ∈ e.scored ns ↔ ∃ m ∈ ns, ∃ x, e.evaluate m = .ok x ∧ n = { m with cost := some x } := by
  rw [Evaluator.scored, List.mem_filterMap]
  refine exists_congr fun m => and_congr_right fun _ => ?_
  cases e.evaluate m with
  | error failure => simp [Except.toOption]
  | ok x => simp [Except.toOption, eq_comm]

theorem exists_of_mem_scored (h : n ∈ e.scored ns) : ∃ m ∈ ns, ∃ x, n = { m with cost := some x } := by
  obtain ⟨m, hm, x, -, hn⟩ := mem_scored_iff.1 h
  exact ⟨m, hm, x, hn⟩

theorem depth_of_scored_neighbors {neighbors : List Nest} (hneighbors : n.neighbors c = .ok neighbors)
    (hns : ∀ m ∈ ns, m ∈ neighbors) : ∀ m ∈ e.scored ns, m.depth = n.depth + 1 := by
  intro m hm
  obtain ⟨m', hm', x, rfl⟩ := exists_of_mem_scored hm
  obtain ⟨ts, -, t, -, hderive⟩ := Nest.mem_neighbors hneighbors (hns m' hm')
  change m'.depth = n.depth + 1
  exact Nest.depth_derive hderive

theorem scores_of_score (h : score cfg e s ns = .ok (s', scored)) :
    ∃ s₁, Scores e s (ns.take (cfg.maxExplored - s.explored)) s₁ ∧ s' = s₁.recordRound ∧
      scored = e.scored (ns.take (cfg.maxExplored - s.explored)) := by
  obtain ⟨⟨s₁, _⟩, hscore, h⟩ := bind_eq_ok.1 h
  cases h
  obtain ⟨hscores, rfl⟩ := scores_of_scoreEach hscore
  exact ⟨s₁, hscores, rfl, rfl⟩

theorem le_explored_of_score (h : score cfg e s ns = .ok (s', scored)) : s.explored ≤ s'.explored := by
  obtain ⟨s₁, hscores, rfl, -⟩ := scores_of_score h
  rw [explored_recordRound, hscores.explored]
  exact Nat.le_add_right _ _

theorem seen_score (h : score cfg e s ns = .ok (s', scored)) : s'.seen = s.seen := by
  obtain ⟨s₁, hscores, rfl, -⟩ := scores_of_score h
  rw [recordRound_eq, hscores.seen]

theorem falling_push {h : Array Float} {x y : Float}
    (hfalling : h.toList.Pairwise fun x y => totalOrder y ≤ totalOrder x) (hlast : h.back? = some x)
    (hle : totalOrder y ≤ totalOrder x) : (h.push y).toList.Pairwise fun x y => totalOrder y ≤ totalOrder x := by
  rw [← Array.getLast?_toList, List.getLast?_eq_some_iff] at hlast
  obtain ⟨earlier, hsplit⟩ := hlast
  rw [Array.toList_push, List.pairwise_append]
  refine ⟨hfalling, List.pairwise_singleton _ _, fun z hz w hw => ?_⟩
  cases List.mem_singleton.1 hw
  rw [hsplit] at hfalling hz
  rcases List.mem_append.1 hz with hz | hz
  · exact Int.le_trans hle ((List.pairwise_append.1 hfalling).2.2 z hz x (List.mem_singleton_self x))
  · rwa [List.mem_singleton.1 hz]

theorem Ledger.score (hl : Ledger c cfg e first asked pending s)
    (h : score cfg e s pending = .ok (s', scored)) :
    Ledger c cfg e first (asked ++ pending.take (cfg.maxExplored - s.explored)) [] s' := by
  obtain ⟨s₁, hscores, rfl, -⟩ := scores_of_score h
  generalize hmore : pending.take (cfg.maxExplored - s.explored) = more at hscores ⊢
  obtain ⟨b, x, hb, hx, hlast, hleast⟩ := hl.best
  obtain ⟨b', hb', hleast'⟩ := hscores.best b _ hb hleast
  rw [List.cons_append, ← scored_append] at hleast'
  obtain ⟨x', hx'⟩ : ∃ x', b'.cost = some x' := by
    apply Option.isSome_iff_exists.1
    rcases List.mem_cons.1 hleast'.mem with rfl | hmem
    · exact hl.priced
    · obtain ⟨m, -, x', rfl⟩ := exists_of_mem_scored hmem
      rfl
  have hrecord : s₁.recordRound = { s₁ with history := s.history.push x' } := by
    simp only [State.recordRound, hb', Nest.costOrInfinity, hx', Option.getD_some, hscores.history]
  have hsub : (first :: (asked ++ more) ++ []).Sublist (first :: asked ++ pending) := by
    rw [List.append_nil, ← List.cons_append, ← hmore]
    exact List.Sublist.append_left (List.take_sublist _ _) _
  -- what is left of the budget bounds what is scored, and what is over has been marked all the same
  have hlength : more.length = min (cfg.maxExplored - s.explored) pending.length := by
    rw [← hmore, List.length_take]
  have hbudget := hl.budget
  rw [hrecord]
  constructor
  · exact hl.priced
  · rw [hscores.explored, hl.explored, List.length_append]
    omega
  · rw [hscores.explored]
    omega
  · rw [hscores.discarded, hl.discarded, List.countP_append]
  · exact hl.distinct.sublist (hsub.map _)
  · intro n hn
    dsimp only
    rw [hscores.seen]
    exact hl.marked n (hsub.subset hn)
  · intro key hkey
    dsimp only at hkey ⊢
    rw [hscores.seen] at hkey
    by_cases hall : pending.length ≤ cfg.maxExplored - s.explored
    · rw [List.take_of_length_le hall] at hmore
      subst hmore
      rw [List.append_nil, ← List.cons_append, hscores.explored]
      exact (hl.known key hkey).imp_right fun hspent => by omega
    · right
      rw [hscores.explored]
      omega
  · intro n hn
    apply hl.admissible
    rw [List.append_nil] at hn
    rw [← hmore] at hn
    exact (List.Sublist.append_left (List.take_sublist _ _) _).subset hn
  · exact ⟨b', x', hb', hx', Array.back?_push, hleast'⟩
  · apply falling_push hl.falling hlast
    have hle := Nest.totalOrder_le_of_compare (hleast'.isLE (n := b) ?_)
    · simpa [Nest.costOrInfinity, hx, hx'] using hle
    · rw [scored_append, ← List.cons_append]
      exact List.mem_append_left _ hleast.mem

theorem asks_score (h : score cfg e s ns = .ok (s', scored)) :
    Asks id (fun e => score cfg e s ns) e (ns.take (cfg.maxExplored - s.explored)) (s', scored) := by
  obtain ⟨⟨s₁, _⟩, hscore, h⟩ := bind_eq_ok.1 h
  exact (asks_scoreEach hscore).bindGiven h

end Scoring

section Initial

variable {initial : Nest}

def price (initial : Nest) (e : Evaluator) : Outcome SearchError Nest :=
  match initial.cost with
  | some _ => .ok initial
  | none => ((e.evaluate initial).mapRefusal .initialNotEvaluable).map fun x => { initial with cost := some x }

def unpriced (initial : Nest) : List Nest := if initial.cost.isSome then [] else [initial]

def enter (c : Context) (first : Nest) : Checked State := do
  let key ← first.structureText c
  return { explored := 1, best := some first, history := #[first.costOrInfinity]
           seen := (∅ : Std.HashSet String).insert key }

theorem scoreInitial_eq (c : Context) (earlier : State) (initial : Nest) (e : Evaluator) :
    scoreInitial c earlier initial e = (price initial e >>= fun first => do let s ← enter c first; return (s, first)) := by
  have henter : ∀ first : Nest, (do
      let key ← (liftM (first.structureText c) : Outcome SearchError String)
      let s := earlier.reset
      return ({ s with explored := s.explored + 1, best := some first
                       history := s.history.push first.costOrInfinity, seen := s.seen.insert key }, first)) =
      (do let s ← enter c first; return (s, first)) := by
    intro first
    unfold enter
    cases first.structureText c with
    | error f => rfl
    | ok key => rfl
  unfold scoreInitial price
  cases initial.cost with
  | some x => exact henter initial
  | none =>
    dsimp only
    congr 1
    funext first
    exact henter first

theorem price_eq_ok (h : price initial e = .ok first) :
    ∃ x, first = { initial with cost := some x } ∧ first.cost = some x := by
  unfold price at h
  split at h
  · next x hx =>
    cases h
    exact ⟨x, by rw [← hx], hx⟩
  · obtain ⟨x, -, rfl⟩ := map_eq_ok.1 h
    exact ⟨x, rfl, rfl⟩

theorem asks_price (h : price initial e = .ok first) : Asks .fault (price initial) e (unpriced initial) first := by
  unfold unpriced
  cases hcost : initial.cost with
  | some x =>
    simp only [price, hcost] at h
    cases h
    exact ⟨fun e' _ => by simp only [price, hcost], fun before n after hsplit => by simp at hsplit⟩
  | none =>
    simp only [price, hcost] at h
    refine .cons (fun e' he' => ?_) (fun e' f hf => ?_) (.given h)
    · simp only [price, hcost, he']
    · simp only [price, hcost, hf]
      rfl

theorem price_eq_refuse {err : SearchError} (h : price initial e = Outcome.refuse err) :
    initial.cost = none ∧ ∃ err', e.evaluate initial = Outcome.refuse err' := by
  unfold price at h
  split at h
  · cases h
  · next hcost =>
    refine ⟨hcost, ?_⟩
    cases hx : e.evaluate initial with
    | ok x =>
      rw [hx] at h
      cases h
    | error failure =>
      cases failure with
      | fault f =>
        rw [hx] at h
        cases h
      | refused err' => exact ⟨err', rfl⟩

theorem ledger_of_enter (hfirst : price initial e = .ok first) (h : enter c first = .ok s) :
    Ledger c cfg e first [] [] s := by
  obtain ⟨x, -, hx⟩ := price_eq_ok hfirst
  obtain ⟨key, hkey, h⟩ := bind_eq_ok.1 h
  cases h
  constructor
  · rw [hx]
    rfl
  · rfl
  · exact Nat.le_max_left _ _
  · rfl
  · exact List.nodup_singleton _
  · intro n hn
    cases List.mem_singleton.1 hn
    exact ⟨key, hkey, Std.HashSet.mem_insert_self⟩
  · intro key' hkey'
    rcases Std.HashSet.mem_insert.1 hkey' with hsame | hseen
    · cases eq_of_beq hsame
      exact Or.inl ⟨first, List.mem_singleton_self _, hkey⟩
    · cases Std.HashSet.not_mem_empty hseen
  · exact nofun
  · refine ⟨first, x, rfl, hx, ?_, Nest.FirstLeast.singleton _⟩
    rw [Nest.costOrInfinity, hx]
    rfl
  · exact List.pairwise_singleton _ _

end Initial

end Search

end LoopNest
