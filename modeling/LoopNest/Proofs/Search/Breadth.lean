import LoopNest.Proofs.Nest.Structure
import LoopNest.Proofs.Search.Coverage
import LoopNest.Proofs.Search.Faults
import LoopNest.Proofs.Search.Termination

/-!
Beam search with room for every candidate goes through the structures breadth first. It comes upon each at the end
of a shortest path and misses none within the depth limit.
-/

namespace LoopNest

open Search

namespace Triple

variable {α β : Type} {e : Evaluator} {pre : List Nest → Prop} {post : List Nest → α → Prop}
  {post' : List Nest → β → Prop}

theorem bindResult {run : Evaluator → Checked α} {rest : Evaluator → α → Checked β} (hrun : Triple e pre run post)
    (hrest : ∀ a, run e = .ok a → Triple e (post · a) (rest · a) post') :
    Triple e pre (fun e => run e >>= rest e) post' := by
  intro asked hpre b hb
  obtain ⟨a, ha, hb⟩ := bind_eq_ok.1 hb
  obtain ⟨more, hasks, hpost⟩ := hrun asked hpre a ha
  obtain ⟨later, hlater, hpost'⟩ := hrest a ha (asked ++ more) hpost b hb
  refine ⟨more ++ later, hasks.bind hlater, ?_⟩
  rwa [← List.append_assoc]

end Triple

namespace Search

variable {c : Context} {cfg : SearchParameters} {e : Evaluator} {initial first n : Nest} {s s' : State}
  {asked rest got : List Nest} {level : Nat}

def Opened (c : Context) (s : State) (n : Nest) : Prop :=
  ∃ ns, n.neighbors c = .ok ns ∧ ∀ m ∈ ns, ∃ key, m.structureText c = .ok key ∧ key ∈ s.seen

theorem Opened.mono (h : Opened c s n) (hgrows : ∀ key ∈ s.seen, key ∈ s'.seen) : Opened c s' n := by
  obtain ⟨ns, hns, hseen⟩ := h
  refine ⟨ns, hns, fun m hm => ?_⟩
  obtain ⟨key, hkey, hmem⟩ := hseen m hm
  exact ⟨key, hkey, hgrows key hmem⟩

def Distinguished (c : Context) (initial : Nest) : Prop :=
  ∀ n m s, Derives c initial n → Derives c initial m → n.structureText c = .ok s → m.structureText c = .ok s →
    n.roots = m.roots

structure Layers (c : Context) (cfg : SearchParameters) (e : Evaluator) (initial first : Nest) (level : Nat)
    (rest got : List Nest) (asked : List Nest) (s : State) : Prop where
  ledger : Ledger c cfg e first asked [] s
  derived : ∀ m ∈ asked, Derives c initial m
  shallow : ∀ m ∈ asked, m.depth ≤ first.depth + level + 1
  waiting : ∀ m ∈ rest, Found c initial m ∧ m.depth = first.depth + level
  gained : ∀ m ∈ got, Found c initial m ∧ m.depth = first.depth + level + 1
  opened : s.explored < cfg.maxExplored → ∀ m ∈ first :: asked, m.depth < cfg.maxDepth →
    m.depth ≤ first.depth + level → (∃ x, { m with cost := some x } ∈ rest) ∨ Opened c s m
  collected : s.explored < cfg.maxExplored → ∀ m ∈ first :: asked, m.depth = first.depth + level + 1 →
    ∃ x, { m with cost := some x } ∈ got
  complete : s.explored < cfg.maxExplored → ∀ m, Derives c initial m → m.depth ≤ first.depth + level →
    m.depth ≤ cfg.maxDepth → ∃ n ∈ first :: asked, n.structureText c = m.structureText c ∧ n.depth ≤ m.depth

/-- Every structure within the depth limit has been met, at the end of a path that is no longer than any other. -/
structure Complete (c : Context) (cfg : SearchParameters) (e : Evaluator) (initial first : Nest) (asked : List Nest)
    (s : State) : Prop where
  ledger : Ledger c cfg e first asked [] s
  derived : ∀ m ∈ asked, Derives c initial m
  complete : s.explored < cfg.maxExplored → ∀ m, Derives c initial m → m.depth ≤ cfg.maxDepth →
    ∃ n ∈ first :: asked, n.structureText c = m.structureText c ∧ n.depth ≤ m.depth

theorem Found.priced (h : Found c initial n) (x : Option Float) : Found c initial { n with cost := x } := by
  obtain ⟨m, y, hm, rfl⟩ := h
  exact ⟨m, x, hm, rfl⟩

namespace Layers

theorem found (h : Layers c cfg e initial first level rest got asked s) (hfirst : Found c initial first) :
    ∀ m ∈ first :: asked, Found c initial m :=
  List.forall_mem_cons.2 ⟨hfirst, fun m hm => ⟨m, m.cost, h.derived m hm, rfl⟩⟩

theorem pop (h : Layers c cfg e initial first level (n :: rest) got asked s)
    (hn : cfg.maxDepth ≤ n.depth ∨ cfg.maxExplored ≤ s.explored) :
    Layers c cfg e initial first level rest got asked s := by
  refine { h with waiting := fun m hm => h.waiting m (List.mem_cons_of_mem _ hm), opened := ?_ }
  intro hroom m hm hdepth hlevel
  rcases h.opened hroom m hm hdepth hlevel with ⟨x, hx⟩ | hopened
  · rcases List.mem_cons.1 hx with hsame | hx
    · have hsame : n.depth = m.depth := by rw [← hsame]; rfl
      omega
    · exact Or.inl ⟨x, hx⟩
  · exact Or.inr hopened

theorem expand (he : e.ScoresAll) (h : Layers c cfg e initial first level (n :: rest) got asked s)
    (hdepth : ¬ cfg.maxDepth ≤ n.depth) {neighbors fresh scored : List Nest} {s₁ : State}
    (hneighbors : n.neighbors c = .ok neighbors) (hfresh : visitAll c s neighbors = .ok (s₁, fresh))
    (hscore : score cfg e s₁ fresh = .ok (s', scored)) :
    Layers c cfg e initial first level rest (got ++ scored)
      (asked ++ fresh.take (cfg.maxExplored - s₁.explored)) s' := by
  obtain ⟨hn, hlevel⟩ := h.waiting n List.mem_cons_self
  have hopens := h.ledger.opens hdepth hneighbors hfresh hscore
  obtain ⟨-, -, -, rfl⟩ := scores_of_score hscore
  generalize fresh.take (cfg.maxExplored - s₁.explored) = more at hopens ⊢
  have hnew : ∀ m ∈ more, Derives c initial m ∧ m.depth = first.depth + level + 1 := by
    intro m hm
    obtain ⟨ts, hts, t, ht, hderive⟩ := Nest.mem_neighbors hneighbors (hopens.new m hm)
    exact ⟨hn.derives hts ht hderive, by rw [Nest.depth_derive hderive, hlevel]⟩
  -- a budget that lasts to the end has lasted until now, so what was known before may be used
  constructor
  · exact hopens.ledger
  · exact List.forall_mem_append.2 ⟨h.derived, fun m hm => (hnew m hm).1⟩
  · exact List.forall_mem_append.2 ⟨h.shallow, fun m hm => (hnew m hm).2.le⟩
  · exact fun m hm => h.waiting m (List.mem_cons_of_mem _ hm)
  · refine List.forall_mem_append.2 ⟨h.gained, fun m hm => ?_⟩
    obtain ⟨m', hm', x, rfl⟩ := exists_of_mem_scored hm
    exact ⟨⟨m', some x, (hnew m' hm').1, rfl⟩, (hnew m' hm').2⟩
  · intro hroom m hm hshallow hbelow
    rw [← List.cons_append] at hm
    rcases List.mem_append.1 hm with hm | hm
    · rcases h.opened (hopens.before hroom) m hm hshallow hbelow with ⟨x, hx⟩ | hopened
      · rcases List.mem_cons.1 hx with hsame | hx
        · -- `n` has been expanded just now
          refine Or.inr ⟨neighbors, ?_, hopens.seen⟩
          rw [← hneighbors, ← hsame]
          exact (Nest.neighbors_priced _).symm
        · exact Or.inl ⟨x, hx⟩
      · exact Or.inr (hopened.mono hopens.grows)
    · have hsame := (hnew m hm).2
      omega
  · intro hroom m hm hsame
    rw [← List.cons_append] at hm
    rcases List.mem_append.1 hm with hm | hm
    · obtain ⟨x, hx⟩ := h.collected (hopens.before hroom) m hm hsame
      exact ⟨x, List.mem_append_left _ hx⟩
    · obtain ⟨x, hx⟩ := he.mem_scored hm
      exact ⟨x, List.mem_append_right _ hx⟩
  · intro hroom m hm hlevel hlimit
    obtain ⟨k, hk, hsame⟩ := h.complete (hopens.before hroom) m hm hlevel hlimit
    exact ⟨k, List.mem_append_left _ hk, hsame⟩

theorem exists_derived (h : Layers c cfg e initial first level rest got asked s) (hfirst : Found c initial first)
    (htexts : Distinguished c initial) (hroom : s.explored < cfg.maxExplored) {k m : Nest} {ts : List Transformation}
    {t : Transformation} (hk : Derives c initial k) (hts : k.candidates c = .ok ts) (ht : t ∈ ts)
    (hderive : k.derive c t = .ok m) (hn : n ∈ first :: asked) (htext : n.structureText c = k.structureText c)
    (hopened : Opened c s n) : ∃ n' ∈ first :: asked, n'.structureText c = m.structureText c := by
  obtain ⟨key, hkey, -⟩ := h.ledger.marked n (List.mem_append_left _ hn)
  obtain ⟨n₀, x, hn₀, rfl⟩ := h.found hfirst n hn
  have hroots : n₀.roots = k.roots := htexts n₀ k key hn₀ hk hkey (htext ▸ hkey)
  obtain ⟨ns, hns, hseen⟩ := hopened
  have hpriced : ({ n₀ with cost := x } : Nest).roots = k.roots := hroots
  obtain ⟨m', hm', hsame⟩ := Nest.exists_neighbor hpriced hns hts ht hderive
  obtain ⟨key', hkey', hmem⟩ := hseen m' hm'
  rcases h.ledger.known key' hmem with ⟨n', hn', htext'⟩ | hspent
  · rw [List.append_nil] at hn'
    exact ⟨n', hn', by rw [htext', ← hkey', Nest.structureText_sameTree hsame]⟩
  · omega

theorem complete_succ (h : Layers c cfg e initial first level [] got asked s) (hfirst : Found c initial first)
    (htexts : Distinguished c initial) (hroom : s.explored < cfg.maxExplored) {m : Nest} (hm : Derives c initial m)
    (hlevel : m.depth ≤ first.depth + level + 1) (hlimit : m.depth ≤ cfg.maxDepth) :
    ∃ n ∈ first :: asked, n.structureText c = m.structureText c ∧ n.depth ≤ m.depth := by
  by_cases hshallow : m.depth ≤ first.depth + level
  · exact h.complete hroom m hm hshallow hlimit
  cases hm with
  | start =>
    obtain ⟨n₀, x, hn₀, rfl⟩ := hfirst
    have hle := hn₀.depth_le
    change ¬ initial.depth ≤ n₀.depth + level at hshallow
    omega
  | next hk hts ht hderive =>
    have hstep := Nest.depth_derive hderive
    obtain ⟨n, hn, htext, hdepth⟩ := h.complete hroom _ hk (by omega) (by omega)
    have hopened : Opened c s n := (h.opened hroom n hn (by omega) (by omega)).resolve_left nofun
    obtain ⟨n', hn', htext'⟩ := h.exists_derived hfirst htexts hroom hk hts ht hderive hn htext hopened
    refine ⟨n', hn', htext', ?_⟩
    rcases List.mem_cons.1 hn' with rfl | hasked
    · omega
    · have hle := h.shallow n' hasked
      omega

theorem next (h : Layers c cfg e initial first level [] got asked s) (hfirst : Found c initial first)
    (htexts : Distinguished c initial) {beam : List Nest} (hbeam : beam.Perm got) :
    Layers c cfg e initial first (level + 1) beam [] asked s := by
  constructor
  · exact h.ledger
  · exact h.derived
  · exact fun m hm => (h.shallow m hm).trans (by omega)
  · exact fun m hm => h.gained m (hbeam.mem_iff.1 hm)
  · exact nofun
  · intro hroom m hm hdepth hlevel
    by_cases hold : m.depth ≤ first.depth + level
    · exact Or.inr ((h.opened hroom m hm hdepth hold).resolve_left nofun)
    · obtain ⟨x, hx⟩ := h.collected hroom m hm (by omega)
      exact Or.inl ⟨x, hbeam.mem_iff.2 hx⟩
  · intro hroom m hm hlevel
    rcases List.mem_cons.1 hm with rfl | hm
    · omega
    · have hle := h.shallow m hm
      omega
  · exact fun hroom m hm hlevel hlimit => h.complete_succ hfirst htexts hroom hm hlevel hlimit

theorem complete_of_nothing (h : Layers c cfg e initial first level [] [] asked s) (hfirst : Found c initial first)
    (htexts : Distinguished c initial) : Complete c cfg e initial first asked s := by
  refine ⟨h.ledger, h.derived, fun hroom m hm hlimit => ?_⟩
  -- no nest that was asked for is deeper than the level, whose next one is empty
  have hold : ∀ n ∈ first :: asked, n.depth ≤ first.depth + level := by
    refine List.forall_mem_cons.2 ⟨by omega, fun n hn => ?_⟩
    have hle := h.shallow n hn
    have hne : n.depth ≠ first.depth + level + 1 := by
      intro heq
      obtain ⟨x, hx⟩ := h.collected hroom n (List.mem_cons_of_mem _ hn) heq
      cases hx
    omega
  -- along the derivation of the tree: its predecessor stands for a nest that has been opened
  induction hm with
  | start =>
    obtain ⟨n₀, x, hn₀, hsame⟩ := hfirst
    have hle := hn₀.depth_le
    refine h.complete hroom initial .start ?_ hlimit
    rw [hsame]
    change initial.depth ≤ n₀.depth + level
    omega
  | @next k m ts t hk hts ht hderive ih =>
    have hstep := Nest.depth_derive hderive
    obtain ⟨n, hn, htext, hdepth⟩ := ih (by omega)
    have hopened : Opened c s n := (h.opened hroom n hn (by omega) (hold n hn)).resolve_left nofun
    obtain ⟨n', hn', htext'⟩ := h.exists_derived hfirst htexts hroom hk hts ht hderive hn htext hopened
    by_cases hlevel : m.depth ≤ first.depth + level
    · exact h.complete hroom m (hk.next hts ht hderive) hlevel hlimit
    · -- the derivation is longer than that of any nest that was asked for
      refine ⟨n', hn', htext', ?_⟩
      have hle := hold n' hn'
      omega

end Layers

theorem layers_of_enter (hfirst : price initial e = .ok first) (henter : enter c first = .ok s) :
    Layers c cfg e initial first 0 [first] [] [] s := by
  obtain ⟨x, rfl, -⟩ := price_eq_ok hfirst
  constructor
  · exact ledger_of_enter hfirst henter
  · exact nofun
  · exact nofun
  · exact List.forall_mem_singleton.2 ⟨⟨initial, some x, .start, rfl⟩, rfl⟩
  · exact nofun
  · intro _ m hm _ _
    cases List.mem_singleton.1 hm
    exact Or.inl ⟨x, List.mem_singleton_self _⟩
  · intro _ m hm hsame
    cases List.mem_singleton.1 hm
    omega
  · intro _ m hm hdepth _
    refine ⟨_, List.mem_singleton_self _, ?_⟩
    cases hm with
    | start => exact ⟨rfl, Nat.le_refl _⟩
    | next hk _ _ hderive =>
      have hle := hk.depth_le
      rw [Nest.depth_derive hderive] at hdepth
      change _ ≤ initial.depth + 0 at hdepth
      omega

namespace Complete

variable {x : Float}

theorem exists_shortest (h : Complete c cfg e initial first asked s) (hfirst : first = { initial with cost := some x })
    (htexts : Distinguished c initial) (hroom : s.explored < cfg.maxExplored) {m : Nest} (hm : Derives c initial m)
    (hlimit : m.depth ≤ cfg.maxDepth) : ∃ n ∈ initial :: asked, n.roots = m.roots ∧
      ∀ m', Derives c initial m' → m'.roots = m.roots → n.depth ≤ m'.depth := by
  obtain ⟨n, hn, htext, hdepth⟩ := h.complete hroom m hm hlimit
  have hshortest : ∀ m', Derives c initial m' → m'.roots = m.roots → n.depth ≤ m'.depth := by
    intro m' hm' hroots
    by_cases hlimit' : m'.depth ≤ cfg.maxDepth
    · obtain ⟨n', hn', htext', hdepth'⟩ := h.complete hroom m' hm' hlimit'
      have hdistinct := h.ledger.distinct
      rw [List.append_nil] at hdistinct
      have hsame : n = n' := List.inj_on_of_nodup_map hdistinct hn hn'
        (by rw [htext, htext', Nest.structureText_sameTree hroots])
      rwa [hsame]
    · omega
  obtain ⟨key, hkey, -⟩ := h.ledger.marked n (List.mem_append_left _ hn)
  subst hfirst
  rcases List.mem_cons.1 hn with rfl | hn
  · exact ⟨initial, List.mem_cons_self, htexts initial m key .start hm hkey (htext ▸ hkey), hshortest⟩
  · exact ⟨n, List.mem_cons_of_mem _ hn, htexts n m key (h.derived n hn) hm hkey (htext ▸ hkey), hshortest⟩

theorem nodup_roots (h : Complete c cfg e initial first asked s) (hfirst : first = { initial with cost := some x }) :
    ((initial :: asked).map Nest.roots).Nodup := by
  have hdistinct := h.ledger.distinct
  subst hfirst
  rw [List.append_nil] at hdistinct
  apply List.Nodup.of_map (Node.textAll c.program 0)
  rwa [List.map_map]

end Complete

section Levels

theorem layers_scoreNeighbors (he : e.ScoresAll) (hbudget : cfg.timeBudget = none) :
    Triple e (Layers c cfg e initial first level (n :: rest) got · s) (fun e => scoreNeighbors c cfg e s n)
      fun asked r => Layers c cfg e initial first level rest (got ++ r.2) asked r.1 := by
  unfold scoreNeighbors
  refine .ite (fun hstop => .pure fun asked h => ?_) fun hgo => ?_
  · rw [List.append_nil]
    refine h.pop ?_
    rcases Bool.or_eq_true_iff.1 hstop with hdeep | hspent
    · exact Or.inl (of_decide_eq_true hdeep)
    · exact Or.inr ((isSpent_iff hbudget).1 hspent)
  · have hdepth : ¬ cfg.maxDepth ≤ n.depth := fun hdeep => hgo (by simp [hdeep])
    refine .after fun neighbors hneighbors => .after fun ⟨s₁, fresh⟩ hfresh => ?_
    rintro asked h ⟨s', scored⟩ hscore
    exact ⟨_, asks_score hscore, h.expand he hdepth hneighbors hfresh hscore⟩

theorem layers_scoreNeighborsOfAll (he : e.ScoresAll) (hbudget : cfg.timeBudget = none) {ns : List Nest} :
    Triple e (Layers c cfg e initial first level ns got · s) (fun e => scoreNeighborsOfAll c cfg e s ns)
      fun asked r => Layers c cfg e initial first level [] (got ++ r.2) asked r.1 := by
  induction ns generalizing s got with
  | nil =>
    refine .pure fun asked h => ?_
    rwa [List.append_nil]
  | cons n ns ih =>
    refine .bind (layers_scoreNeighbors he hbudget) fun r => .bind ih fun r' => .pure fun asked h => ?_
    rwa [← List.append_assoc]

/-- The beam takes all candidates of every level of the search. -/
def RoomForAll (c : Context) (cfg : SearchParameters) (first : Nest) (s : State) (e : Evaluator) : Prop :=
  ∀ x, (beamLoop c cfg first s e).Passes x → ∀ s' candidates,
    scoreNeighborsOfAll c cfg e x.state x.beam = .ok (s', candidates) → candidates.length ≤ cfg.beamWidth

theorem complete_beamLevels {s₀ : State} (he : e.ScoresAll) (hbudget : cfg.timeBudget = none)
    (hpatience : cfg.maxDepth < cfg.patience) (hroomy : RoomForAll c cfg first s₀ e) (hfirst : Found c initial first)
    (htexts : Distinguished c initial) {levels : Nat} {x : Level} (hx : (beamLoop c cfg first s₀ e).Passes x)
    (hlevels : x.level + levels = cfg.maxDepth) (hplateau : x.plateau ≤ x.level) :
    Triple e (Layers c cfg e initial first x.level x.beam [] · x.state)
      (fun e => beamLevels c cfg e levels x.state x.beam x.bestCost x.plateau)
      fun asked s => Complete c cfg e initial first asked s := by
  -- the stages of the loop go along, as only for them there is known to be room
  induction levels generalizing x with
  | zero =>
    refine .pure fun asked h => ⟨h.ledger, h.derived, fun hroom m hm hlimit => ?_⟩
    exact h.complete hroom m hm (by omega) hlimit
  | succ levels ih =>
    refine .bindResult (layers_scoreNeighborsOfAll he hbudget) fun ⟨s', candidates⟩ hscored => ?_
    have hwide : candidates.length ≤ max cfg.beamWidth 1 := (hroomy x hx s' candidates hscored).trans (le_max_left _ _)
    -- nothing is cut from the beam, which is why no tree is lost
    have hkept : (Nest.sorted candidates).take (max cfg.beamWidth 1) = Nest.sorted candidates := by
      apply List.take_of_length_le
      rw [Nest.sorted, List.length_mergeSort]
      exact hwide
    have hperm : (Nest.sorted candidates).Perm candidates := List.mergeSort_perm _ _
    have hround := beamRound_of_lt (c := c) (e := e) (show x.level < cfg.maxDepth by omega)
    rw [hscored, ok_bind] at hround
    dsimp only at hround ⊢
    rw [hkept] at hround ⊢
    cases hsorted : Nest.sorted candidates with
    | nil =>
      rw [hsorted] at hperm
      refine .pure fun asked h => ?_
      rw [List.nil_append, hperm.symm.eq_nil] at h
      exact h.complete_of_nothing hfirst htexts
    | cons n ns =>
      rw [hsorted] at hround hperm
      have hnext : ∀ asked, Layers c cfg e initial first x.level [] ([] ++ candidates) asked s' →
          Layers c cfg e initial first (x.level + 1) (n :: ns) [] asked s' := fun asked h => h.next hfirst htexts hperm
      -- the plateau is no longer than the levels so far
      refine .ite (fun himproves => ?_) fun hstays => .ite (fun hend => by omega) fun hgo => ?_
      · simp only [if_pos himproves] at hround
        exact .weaken hnext (ih (hx.next hround) (by dsimp only; omega) (Nat.zero_le _))
      · simp only [if_neg hstays, if_neg hgo] at hround
        exact .weaken hnext (ih (hx.next hround) (by dsimp only; omega) (Nat.add_le_add_right hplateau 1))

end Levels

end Search

theorem Evaluator.ScoresAll.steady {e : Evaluator} (he : e.ScoresAll) : e.Steady := by
  intro n failure h
  obtain ⟨x, hx⟩ := he n
  cases hx.symm.trans h

namespace SingleIteration

def patient : SearchParameters := { parameters with patience := 3 }

def firstNest : Nest := { roots := tree {}, cost := some 1.0 }

theorem levels {s : State} (h : enter context firstNest = .ok s) :
    ∃ s', scoreNeighborsOfAll context patient (.constant 1.0) s [firstNest] =
        .ok (s', [{ parallelNest with cost := some 1.0 }]) ∧ s'.explored = 2 ∧
      scoreNeighborsOfAll context patient (.constant 1.0) s' [{ parallelNest with cost := some 1.0 }] =
        .ok (s'.recordRound, []) := by
  obtain ⟨discarded, best, history, seen, henter, hfree⟩ := enter_tree
  cases henter.symm.trans h
  obtain ⟨s', hscore, hexplored⟩ := scoreNeighbors_tree discarded best history hfree
  refine ⟨s', ?_, hexplored, ?_⟩
  · rw [scoreNeighborsOfAll]
    exact bind_eq_ok.2 ⟨_, hscore, rfl⟩
  · rw [scoreNeighborsOfAll]
    exact bind_eq_ok.2 ⟨_, scoreNeighbors_parallel hexplored, rfl⟩

theorem roomForAll {s : State} (h : enter context firstNest = .ok s) :
    RoomForAll context patient firstNest s (.constant 1.0) := by
  obtain ⟨s', hfirst, -, hsecond⟩ := levels h
  -- only the stages in front of a level matter: the start, and the one that holds the parallel nest
  have hstages : ∀ x, (beamLoop context patient firstNest s (.constant 1.0)).Passes x →
      x = (beamLoop context patient firstNest s (.constant 1.0)).start ∨
        (x.state = s' ∧ x.beam = [{ parallelNest with cost := some 1.0 }]) := by
    intro x hx
    induction hx with
    | start => exact Or.inl rfl
    | @next x y _ hround ih =>
      obtain ⟨-, hlevel, candidates, hscore, hkept, hsome⟩ := beamRound_eq_again hround
      rcases ih with rfl | ⟨hstate, hbeam⟩
      · cases hfirst.symm.trans hscore
        rw [Nest.sorted, List.mergeSort_singleton] at hkept
        exact Or.inr ⟨rfl, hkept.symm⟩
      · rw [hstate, hbeam, hsecond] at hscore
        have hnone : candidates = [] := (congrArg Prod.snd (Except.ok.inj hscore)).symm
        subst hnone
        exact absurd (hkept.symm.trans (congrArg (List.take _) (List.mergeSort_nil))) hsome
  intro x hx s₁ candidates hcandidates
  rcases hstages x hx with rfl | ⟨hstate, hbeam⟩
  · cases hfirst.symm.trans hcandidates
    decide
  · rw [hstate, hbeam, hsecond] at hcandidates
    cases hcandidates
    exact Nat.zero_le _

theorem exists_beamSearch (draws : Draws) (earlier : State) : ∃ s, SearchMethod.beam.search context patient
    { roots := tree {} } (.constant 1.0) draws earlier = .ok s ∧ s.explored = 2 := by
  have hprice : price { roots := tree {} } (.constant 1.0) = .ok firstNest := rfl
  obtain ⟨discarded, best, history, seen, henter, -⟩ := enter_tree
  change enter context firstNest = _ at henter
  obtain ⟨s', hfirst, hexplored, hsecond⟩ := levels henter
  have hlast (cost : Float) (plateau : Nat) : beamLevels context patient (.constant 1.0) 1 s'
      [{ parallelNest with cost := some 1.0 }] cost plateau = .ok s'.recordRound := by
    rw [beamLevels, hsecond, ok_bind]
    dsimp only
    rw [Nest.sorted, List.mergeSort_nil]
    rfl
  refine ⟨s'.recordRound, ?_, ?_⟩
  · rw [SearchMethod.search_eq, hprice, ok_bind, henter, ok_bind, lift_eq_ok]
    change beamLevels _ _ _ (1 + 1) _ _ _ _ = _
    rw [beamLevels, hfirst, ok_bind]
    dsimp only
    rw [Nest.sorted, List.mergeSort_singleton]
    change (if _ then _ else if _ then _ else _) = _
    split
    · exact hlast _ _
    · exact hlast _ _
  · rw [explored_recordRound, hexplored]

end SingleIteration

namespace Crowded

def description : Description where
  name := "crowded"
  params := []
  buffers := [⟨"out", ["1"], .float64, .output⟩]
  computations :=
    [{ name := "c"
       iterators := [⟨"i", "-1", "2"⟩, ⟨"j", "i", "i + 1"⟩]
       store := ⟨"out", ["4611686018427387904*i - 4611686018427387904*j"]⟩
       expr := .const 1.0 }]

def program : Program where
  name := "crowded"
  params := []
  buffers := [⟨"out", [1], .float64, .output⟩]
  computations :=
    [⟨"c", [⟨"i", .ofInt (-1), .ofInt 2⟩, ⟨"j", .var "i", ⟨[⟨1, "i"⟩], 1⟩⟩], .const 1.0,
      ⟨0, [⟨[⟨4611686018427387904, "i"⟩, ⟨-4611686018427387904, "j"⟩], 0⟩]⟩, none⟩]

def tree (tags : Tags) : List Node :=
  [.loop ⟨"i", .ofInt (-1), .ofInt 2, none, {}⟩
    [.loop ⟨"j", .var "i", ⟨[⟨1, "i"⟩], 1⟩, none, tags⟩ [.leaf ⟨0, [.var "i", .var "j"]⟩]]]

def tiled : List Node :=
  [.loop ⟨"i0", .ofInt 0, .ofInt 2, none, {}⟩
    [.loop ⟨"i1", .ofInt 0, .ofInt 2, some ⟨[⟨-2, "i0"⟩], 3⟩, {}⟩
      [.loop ⟨"j", ⟨[⟨2, "i0"⟩, ⟨1, "i1"⟩], -1⟩, ⟨[⟨2, "i0"⟩, ⟨1, "i1"⟩], 0⟩, none, {}⟩
        [.leaf ⟨0, [⟨[⟨2, "i0"⟩, ⟨1, "i1"⟩], -1⟩, .var "j"]⟩]]]]

def visits (concurrent : Int → List Iteration) : List Visit :=
  [-1, 0, 1].map fun i => ⟨(0, [i, i]), [], (0, some 0), concurrent i⟩

def parameters : SearchParameters := { maxDepth := 1, maxExplored := 100, beamWidth := 100, patience := 2 }

abbrev context : Context := Context.ofProgram program

theorem build_eq : description.build = .ok program := rfl

theorem checkLegal_parallel : context.checkLegal (tree { parallel := true }) = .ok () := by
  have hinitial : program.initialVisits = .ok (visits fun _ => []) := rfl
  obtain ⟨k, hk, hv⟩ : ∃ k, Kernel.ofTree program (tree { parallel := true }) = .ok k ∧
      k.visits = .ok (visits fun i => [⟨1, "j", [i], i⟩]) := ⟨_, rfl, rfl⟩
  exact Context.checkLegal_of_faithful (Description.wellFormed_of_build build_eq)
    (Program.fewInstances_of_visits hinitial (by decide)) hinitial (by decide) (by decide) hk hv (by decide)

theorem derive_tile : Nest.derive context { roots := tree {} } (.tile "i" 2) = .error (.fault .overflow) := by
  obtain ⟨d, -, hd, -⟩ := Context.checkLegal_eq_ok.1 checkLegal_parallel
  have happly : (Transformation.tile "i" 2).applyTo program (tree {}) = .ok tiled := rfl
  have hlegal : context.checkLegal tiled = .error (.fault .overflow) := by
    rw [Context.checkLegal, context.recorded_get]
    change (Dataflow.ofProgram program >>= _) = _
    rw [hd, ok_bind]
    rfl
  rw [Nest.derive]
  change (Outcome.mapRefusal _ ((Transformation.tile "i" 2).applyTo program (tree {})) >>= _) = _
  rw [happly, Outcome.mapRefusal_ok, ok_bind, hlegal]
  rfl

theorem candidates_tree : Nest.candidates context { roots := tree {} } =
    .ok [.tile "i" 2, .interchange "i" "j", .parallelize "i", .parallelize "j"] := rfl

theorem neighbors_tree : Nest.neighbors context { roots := tree {} } = .error .overflow := by
  rw [Nest.neighbors, candidates_tree, ok_bind, Nest.deriveEach, Nest.derive?, derive_tile]
  rfl

end Crowded

end LoopNest
