import LoopNest.Proofs.Nest.Derivable
import LoopNest.Proofs.Nest.Structure
import LoopNest.Proofs.Search.Faults

namespace LoopNest

open Search

inductive Reaches (c : Context) (initial : Nest) : Nest → Prop where
  | start : Reaches c initial initial
  | next {n m : Nest} {ns : List Nest} : Reaches c initial n → n.neighbors c = .ok ns → m ∈ ns → Reaches c initial m

def Evaluator.ScoresAll (e : Evaluator) : Prop := ∀ n, ∃ x, e.evaluate n = .ok x

theorem Evaluator.ScoresAll.mem_scored {e : Evaluator} (he : e.ScoresAll) {n : Nest} {ns : List Nest} (hn : n ∈ ns) :
    ∃ x, { n with cost := some x } ∈ e.scored ns := by
  obtain ⟨x, hx⟩ := he n
  exact ⟨x, List.mem_filterMap.2 ⟨n, hn, by simp [hx, Except.toOption]⟩⟩

namespace Search

variable {c : Context} {cfg : SearchParameters} {e : Evaluator} {initial first n : Nest} {s s' : State}
  {asked stack : List Nest}

def Expanded (c : Context) (s : State) (n : Nest) : Prop :=
  ∀ ns, n.neighbors c = .ok ns → ∀ m ∈ ns, ∃ key, m.structureText c = .ok key ∧ key ∈ s.seen

structure Frontier (c : Context) (cfg : SearchParameters) (e : Evaluator) (initial first : Nest) (stack : List Nest)
    (asked : List Nest) (s : State) : Prop where
  ledger : Ledger c cfg e first asked [] s
  expanded : s.explored < cfg.maxExplored → ∀ m ∈ first :: asked, m.depth < cfg.maxDepth →
    (∃ x, { m with cost := some x } ∈ stack) ∨ Expanded c s m
  reached : ∀ m ∈ asked, Reaches c initial m
  stacked : ∀ m ∈ stack, ∃ m', Reaches c initial m' ∧ ∃ x, m = { m' with cost := some x }

theorem Expanded.mono (h : Expanded c s n) (hgrows : ∀ key ∈ s.seen, key ∈ s'.seen) : Expanded c s' n := by
  intro ns hns m hm
  obtain ⟨key, hkey, hseen⟩ := h ns hns m hm
  exact ⟨key, hkey, hgrows key hseen⟩

namespace Frontier

theorem pop_deep (hf : Frontier c cfg e initial first (n :: stack) asked s) (hn : cfg.maxDepth ≤ n.depth) :
    Frontier c cfg e initial first stack asked s := by
  refine ⟨hf.ledger, fun hroom m hm hdepth => ?_, hf.reached, fun m hm => hf.stacked m (List.mem_cons_of_mem _ hm)⟩
  rcases hf.expanded hroom m hm hdepth with ⟨x, hx⟩ | hexpanded
  · rcases List.mem_cons.1 hx with hsame | hx
    · have hshallow : n.depth < cfg.maxDepth := hsame ▸ hdepth
      omega
    · exact Or.inl ⟨x, hx⟩
  · exact Or.inr hexpanded

theorem pop_spent (hf : Frontier c cfg e initial first (n :: stack) asked s) (hspent : cfg.maxExplored ≤ s.explored) :
    Frontier c cfg e initial first stack asked s :=
  ⟨hf.ledger, fun hroom => by omega, hf.reached, fun m hm => hf.stacked m (List.mem_cons_of_mem _ hm)⟩

theorem expand (he : e.ScoresAll) (hf : Frontier c cfg e initial first (n :: stack) asked s)
    (hdepth : ¬ cfg.maxDepth ≤ n.depth) {neighbors fresh scored : List Nest} {s₁ : State}
    (hneighbors : n.neighbors c = .ok neighbors) (hfresh : visitAll c s neighbors = .ok (s₁, fresh))
    (hscore : score cfg e s₁ fresh = .ok (s', scored)) :
    Frontier c cfg e initial first (scored ++ stack) (asked ++ fresh.take (cfg.maxExplored - s₁.explored)) s' ∧
      ∀ m ∈ scored, m.depth = n.depth + 1 := by
  have hopens := hf.ledger.opens hdepth hneighbors hfresh hscore
  obtain ⟨-, -, -, rfl⟩ := scores_of_score hscore
  generalize fresh.take (cfg.maxExplored - s₁.explored) = more at hopens ⊢
  have hreached : ∀ m ∈ more, Reaches c initial m := by
    intro m hm
    obtain ⟨n', hn', x, rfl⟩ := hf.stacked n List.mem_cons_self
    rw [Nest.neighbors_priced] at hneighbors
    exact hn'.next hneighbors (hopens.new m hm)
  refine ⟨⟨hopens.ledger, ?_, ?_, ?_⟩, depth_of_scored_neighbors hneighbors hopens.new⟩
  · intro hroom m hm hshallow
    rw [← List.cons_append] at hm
    rcases List.mem_append.1 hm with hm | hm
    · rcases hf.expanded (hopens.before hroom) m hm hshallow with ⟨x, hx⟩ | hexpanded
      · rcases List.mem_cons.1 hx with hn | hx
        · -- `n` is off the stack, but all its neighbours are seen now
          right
          intro ns hns k hk
          rw [← hn, Nest.neighbors_priced, hns, Except.ok.injEq] at hneighbors
          exact hopens.seen k (hneighbors ▸ hk)
        · exact Or.inl ⟨x, List.mem_append_right _ hx⟩
      · exact Or.inr (hexpanded.mono hopens.grows)
    · obtain ⟨x, hx⟩ := he.mem_scored hm
      exact Or.inl ⟨x, List.mem_append_left _ hx⟩
  · intro m hm
    rcases List.mem_append.1 hm with hm | hm
    · exact hf.reached m hm
    · exact hreached m hm
  · intro m hm
    rcases List.mem_append.1 hm with hm | hm
    · obtain ⟨m', hm', x, rfl⟩ := exists_of_mem_scored hm
      exact ⟨m', hreached m' hm', x, rfl⟩
    · exact hf.stacked m (List.mem_cons_of_mem _ hm)

end Frontier

section DepthFirst

theorem isSpent_iff (hbudget : cfg.timeBudget = none) : s.isSpent cfg ↔ cfg.maxExplored ≤ s.explored := by
  simp [State.isSpent, hbudget]

theorem frontier_scoreNeighbors (he : e.ScoresAll) (hbudget : cfg.timeBudget = none) :
    Triple e (Frontier c cfg e initial first (n :: stack) · s) (fun e => scoreNeighbors c cfg e s n)
      fun asked r => Frontier c cfg e initial first (r.2 ++ stack) asked r.1 ∧ ∀ m ∈ r.2, m.depth = n.depth + 1 := by
  unfold scoreNeighbors
  refine .ite (fun hstop => .pure fun asked hf => ⟨?_, nofun⟩) fun hgo => ?_
  · rcases Bool.or_eq_true_iff.1 hstop with hdeep | hspent
    · exact hf.pop_deep (of_decide_eq_true hdeep)
    · exact hf.pop_spent ((isSpent_iff hbudget).1 hspent)
  · have hdepth : ¬ cfg.maxDepth ≤ n.depth := fun hdeep => hgo (by simp [hdeep])
    refine .after fun neighbors hneighbors => .after fun ⟨s₁, fresh⟩ hfresh => ?_
    rintro asked hf ⟨s', scored⟩ hscore
    exact ⟨_, asks_score hscore, hf.expand he hdepth hneighbors hfresh hscore⟩

theorem frontier_descendAll {remaining : Nat}
    (hdescend : ∀ s n stack, cfg.maxDepth ≤ n.depth + remaining →
      Triple e (Frontier c cfg e initial first (n :: stack) · s) (fun e => descend c cfg e remaining s n)
        fun asked s' => Frontier c cfg e initial first stack asked s')
    {ns : List Nest} (hns : ∀ n ∈ ns, cfg.maxDepth ≤ n.depth + remaining) :
    Triple e (Frontier c cfg e initial first (ns ++ stack) · s) (fun e => descendAll c cfg e remaining s ns)
      fun asked s' => Frontier c cfg e initial first stack asked s' := by
  induction ns generalizing s with
  | nil => exact .congr (.pure fun asked hf => hf) fun e => by rw [descendAll]
  | cons n ns ih =>
    have hfirst := hdescend s n (ns ++ stack) (hns n List.mem_cons_self)
    refine .congr (.bind hfirst fun s' => ?_) fun e => by rw [descendAll]
    exact ih fun m hm => hns m (List.mem_cons_of_mem _ hm)

theorem frontier_descend (he : e.ScoresAll) (hbudget : cfg.timeBudget = none) {remaining : Nat}
    (hn : cfg.maxDepth ≤ n.depth + remaining) :
    Triple e (Frontier c cfg e initial first (n :: stack) · s) (fun e => descend c cfg e remaining s n)
      fun asked s' => Frontier c cfg e initial first stack asked s' := by
  induction remaining generalizing s n stack with
  | zero => exact .congr (.pure fun asked hf => hf.pop_deep hn) fun e => by rw [descend]
  | succ remaining ih =>
    refine .congr (.ite (fun hspent => .pure fun asked hf => hf.pop_spent ((isSpent_iff hbudget).1 hspent))
      fun _ => ?_) fun e => descend_succ
    refine .bind (frontier_scoreNeighbors he hbudget) fun r => ?_
    rintro asked ⟨hf, hdepth⟩
    refine frontier_descendAll (fun s n stack => ih) (fun m hm => ?_) asked hf
    rw [hdepth m hm]
    omega

end DepthFirst

theorem frontier_of_enter (hfirst : price initial e = .ok first) (henter : enter c first = .ok s) :
    Frontier c cfg e initial first [first] [] s := by
  obtain ⟨x, hsame, hx⟩ := price_eq_ok hfirst
  refine ⟨ledger_of_enter hfirst henter, fun _ m hm _ => ?_, nofun, fun m hm => ?_⟩
  · cases List.mem_singleton.1 hm
    exact Or.inl ⟨x, by rw [← hx]; exact List.mem_singleton_self _⟩
  · cases List.mem_singleton.1 hm
    exact ⟨initial, .start, x, hsame⟩

end Search

theorem Reaches.depth_le {c : Context} {initial n : Nest} (h : Reaches c initial n) : initial.depth ≤ n.depth := by
  induction h with
  | start => exact Nat.le_refl _
  | next _ hns hm ih =>
    obtain ⟨ts, -, t, -, hderive⟩ := Nest.mem_neighbors hns hm
    rw [Nest.depth_derive hderive]
    omega

theorem Reaches.derives {c : Context} {initial n : Nest} (h : Reaches c initial n) : Derives c initial n := by
  induction h with
  | start => exact .start
  | next _ hns hm ih => exact ih.of_neighbors hns hm

theorem Derives.reshaped {p : Program} {initial n : Nest} (hinitial : Reshaped p initial.roots)
    (h : Derives (Context.ofProgram p) initial n) : Reshaped p n.roots := by
  induction h with
  | start => exact hinitial
  | next _ _ _ hderive ih => exact reshaped_of_derive ih hderive

/-- No structure occurs twice, and below the depth limit every structure next to one of the nests occurs. -/
structure Covers (c : Context) (cfg : SearchParameters) (initial first : Nest) (asked : List Nest) : Prop where
  distinct : ((first :: asked).map (Nest.structureText c)).Nodup
  reached : ∀ n ∈ asked, Reaches c initial n ∧ n.depth ≤ cfg.maxDepth
  closed : ∀ n ∈ first :: asked, n.depth < cfg.maxDepth → ∀ ns, n.neighbors c = .ok ns → ∀ m ∈ ns,
    ∃ n' ∈ first :: asked, n'.structureText c = m.structureText c

namespace Covers

variable {c : Context} {cfg : SearchParameters} {e : Evaluator} {initial first : Nest} {asked : List Nest} {s : State}

theorem of_frontier (hf : Frontier c cfg e initial first [] asked s) (hroom : s.explored < cfg.maxExplored) :
    Covers c cfg initial first asked := by
  have hbooks : first :: asked ++ [] = first :: asked := List.append_nil _
  constructor
  · rw [← hbooks]
    exact hf.ledger.distinct
  · intro n hn
    refine ⟨hf.reached n hn, (hf.ledger.admissible n ?_).2⟩
    rwa [List.append_nil]
  · intro n hn hdepth ns hns m hm
    rcases hf.expanded hroom n hn hdepth with ⟨x, hx⟩ | hexpanded
    · cases hx
    · obtain ⟨key, hkey, hseen⟩ := hexpanded ns hns m hm
      rcases hf.ledger.known key hseen with ⟨n', hn', htext⟩ | hspent
      · exact ⟨n', hbooks ▸ hn', htext.trans hkey.symm⟩
      · omega

theorem complete (hc : Covers c cfg initial first asked)
    (hprinted : ∀ n ∈ first :: asked, ∃ key, n.structureText c = .ok key) (hfirst : first.roots = initial.roots)
    (hdepth : first.depth = initial.depth)
    (htext : ∀ n m key, Reaches c initial n → Reaches c initial m → n.structureText c = .ok key →
      m.structureText c = .ok key → n.roots = m.roots)
    (hshort : ∀ n ∈ asked, ∀ m, Reaches c initial m → m.roots = n.roots → n.depth ≤ m.depth)
    {m : Nest} (hm : Reaches c initial m) (hshallow : m.depth ≤ cfg.maxDepth) :
    ∃ n ∈ first :: asked, n.roots = m.roots := by
  have hnests : ∀ n ∈ first :: asked, ∃ n', Reaches c initial n' ∧ n'.roots = n.roots := by
    intro n hn
    rcases List.mem_cons.1 hn with rfl | hasked
    · exact ⟨initial, .start, hfirst.symm⟩
    · exact ⟨n, (hc.reached n hasked).1, rfl⟩
  -- along the derivation: its predecessor has the tree of a nest that was evaluated
  induction hm with
  | start => exact ⟨first, List.mem_cons_self, hfirst⟩
  | next hn hns hm ih =>
    next n m ns =>
    obtain ⟨ts, -, t, -, hderive⟩ := Nest.mem_neighbors hns hm
    have hstep := Nest.depth_derive hderive
    obtain ⟨n', hn', hroots⟩ := ih (by omega)
    have hearly : n'.depth ≤ n.depth := by
      rcases List.mem_cons.1 hn' with rfl | hasked
      · rw [hdepth]
        exact hn.depth_le
      · exact hshort n' hasked n hn hroots.symm
    -- the nest evaluated for this structure has a step left too, and the same neighbours
    obtain ⟨ns', hns', hmap⟩ := Nest.neighbors_sameTree hroots hns
    obtain ⟨m', hm', hroots'⟩ := List.mem_map.1 (hmap ▸ List.mem_map_of_mem hm)
    obtain ⟨n'', hn'', hsame⟩ := hc.closed n' hn' (by omega) ns' hns' m' hm'
    obtain ⟨key, hkey⟩ := hprinted n'' hn''
    obtain ⟨k, hk, hkroots⟩ := hnests n'' hn''
    refine ⟨n'', hn'', hkroots.symm.trans (htext k m key hk (hn.next hns hm) ?_ ?_)⟩
    · rw [Nest.structureText_sameTree hkroots, hkey]
    · rw [← Nest.structureText_sameTree hroots', ← hsame, hkey]

end Covers

/-- While its budget lasts, exhaustive search evaluates no structure twice, and all structures next to an
evaluated nest that may go deeper; the best nest is the first of the least. It misses no structure within the
depth limit where structures have one tree each, as they do in programs named by identifiers, and each was met first
at the end of a shortest path. -/
theorem exhaustive_covers (c : Context) (cfg : SearchParameters) (initial : Nest) (e : Evaluator) (draws : Draws)
    (earlier s : State) (hbudget : cfg.timeBudget = none) (he : e.ScoresAll)
    (h : SearchMethod.exhaustive.search c cfg initial e draws earlier = .ok s) (hroom : s.explored < cfg.maxExplored) :
    ∃ first asked, price initial e = .ok first ∧
      Asks .fault (SearchMethod.exhaustive.search c cfg initial · draws earlier) e (unpriced initial ++ asked) s ∧
      Covers c cfg initial first asked ∧
      (∃ b, s.best = some b ∧ b.FirstLeast (first :: e.scored asked)) ∧
      ((∀ n m, Reaches c initial n → Reaches c initial m → n.structureText c = m.structureText c →
          n.roots = m.roots) →
        (∀ n ∈ asked, ∀ m, Reaches c initial m → m.structureText c = n.structureText c → n.depth ≤ m.depth) →
        ∀ m, Reaches c initial m → m.depth ≤ cfg.maxDepth →
          ∃ n ∈ first :: asked, n.structureText c = m.structureText c) ∧
      ∀ (description : Description) (p : Program), description.build = .ok p → c = Context.ofProgram p →
        p.NamedByIdentifiers → Nest.Reachable c initial →
        (∀ n ∈ asked, ∀ m, Reaches c initial m → m.roots = n.roots → n.depth ≤ m.depth) →
        ∀ m, Reaches c initial m → m.depth ≤ cfg.maxDepth → ∃ n ∈ first :: asked, n.roots = m.roots := by
  have hends : ∀ first s₀, price initial e = .ok first → enter c first = .ok s₀ → Triple e (· = [])
      (SearchMethod.exhaustive.continueWith draws c cfg first s₀) (Frontier c cfg e initial first []) := by
    intro first s₀ hfirst henter
    rintro _ rfl
    exact frontier_descend he hbudget (by omega) [] (frontier_of_enter hfirst henter)
  obtain ⟨first, asked, hfirst, hasks, hf⟩ := SearchMethod.ends_of_search hends h
  obtain ⟨x, hsame, -⟩ := price_eq_ok hfirst
  obtain ⟨b, x, hb, -, -, hleast⟩ := hf.ledger.best
  have hcovers := Covers.of_frontier hf hroom
  have hprinted : ∀ n ∈ first :: asked, ∃ key, n.structureText c = .ok key := by
    intro n hn
    obtain ⟨key, hkey, -⟩ := hf.ledger.marked n (List.mem_append_left _ hn)
    exact ⟨key, hkey⟩
  have hroots : first.roots = initial.roots := by rw [hsame]
  have hdepth : first.depth = initial.depth := by
    rw [hsame]
    rfl
  refine ⟨first, asked, hfirst, hasks, hcovers, ⟨b, hb, hleast⟩, fun htext hshort m hm hshallow => ?_, ?_⟩
  · obtain ⟨n, hn, hnm⟩ := hcovers.complete hprinted hroots hdepth
      (fun n m key hn hm hkey hkey' => htext n m hn hm (hkey.trans hkey'.symm))
      (fun n hn m hm hmn => hshort n hn m hm (Nest.structureText_sameTree hmn)) hm hshallow
    exact ⟨n, hn, Nest.structureText_sameTree hnm⟩
  · rintro description p hp rfl hnames hinitial hshort m hm hshallow
    have hreshaped := Nest.reshaped_of_reachable hinitial
    exact hcovers.complete hprinted hroots hdepth (fun n m key hn hm hkey hkey' =>
      roots_eq_of_structureText hp hnames (hn.derives.reshaped hreshaped) (hm.derives.reshaped hreshaped) hkey hkey')
      hshort hm hshallow

namespace SingleIteration

def description : Description where
  name := "single_iteration"
  params := []
  buffers := [⟨"out", ["1"], .float64, .output⟩]
  computations := [{ name := "c", iterators := [⟨"i", "0", "1"⟩], store := ⟨"out", ["i"]⟩, expr := .const 1.0 }]

def program : Program where
  name := "single_iteration"
  params := []
  buffers := [⟨"out", [1], .float64, .output⟩]
  computations := [⟨"c", [⟨"i", .ofInt 0, .ofInt 1⟩], .const 1.0, ⟨0, [.var "i"]⟩, none⟩]

def tree (tags : Tags) : List Node := [.loop ⟨"i", .ofInt 0, .ofInt 1, none, tags⟩ [.leaf ⟨0, [.var "i"]⟩]]

def parallelText : String := "for i in [0, 1) parallel\n  c(i)\n"

def visits (concurrent : List Iteration) : List Visit := [⟨(0, [0]), [], (0, some 0), concurrent⟩]

def parallelNest : Nest := { roots := tree { parallel := true }, applied := [.parallelize "i"] }

def parameters : SearchParameters := { maxDepth := 2, maxExplored := 10 }

abbrev context : Context := Context.ofProgram program

theorem build_eq : description.build = .ok program := rfl

theorem checkLegal_parallel : context.checkLegal (tree { parallel := true }) = .ok () := by
  have hinitial : program.initialVisits = .ok (visits []) := rfl
  obtain ⟨k, hk, hv⟩ : ∃ k, Kernel.ofTree program (tree { parallel := true }) = .ok k ∧
      k.visits = .ok (visits [⟨0, "i", [], 0⟩]) := ⟨_, rfl, rfl⟩
  exact Context.checkLegal_of_faithful (Description.wellFormed_of_build build_eq)
    (Program.fewInstances_of_visits hinitial (by decide)) hinitial (by decide) (by decide) hk hv (by decide)

theorem neighbors_tree : Nest.neighbors context { roots := tree {}, cost := some 1.0 } = .ok [parallelNest] := by
  have hcandidates : Nest.candidates context { roots := tree {}, cost := some 1.0 } = .ok [.parallelize "i"] := rfl
  have hderive : Nest.derive context { roots := tree {}, cost := some 1.0 } (.parallelize "i") = .ok parallelNest :=
    Nest.derive_of_legal rfl checkLegal_parallel
  rw [Nest.neighbors, hcandidates, ok_bind, Nest.deriveEach, Nest.derive?, hderive]
  rfl

theorem scoreNeighbors_tree (discarded : Nat) (best : Option Nest) (history : Array Float)
    {seen : Std.HashSet String} (h : parallelText ∉ seen) :
    ∃ s, scoreNeighbors context parameters (.constant 1.0) ⟨1, discarded, best, history, seen⟩
      { roots := tree {}, cost := some 1.0 } = .ok (s, [{ parallelNest with cost := some 1.0 }]) ∧
      s.explored = 2 := by
  have hgo : ¬ (decide (parameters.maxDepth ≤ ({ roots := tree {}, cost := some 1.0 } : Nest).depth) ||
      State.isSpent ⟨1, discarded, best, history, seen⟩ parameters) = true := Bool.false_ne_true
  have htext : parallelNest.structureText context = .ok parallelText := rfl
  have hvisit : visit context ⟨1, discarded, best, history, seen⟩ parallelNest =
      .ok (⟨1, discarded, best, history, seen.insert parallelText⟩, true) := by
    rw [visit, htext, ok_bind, if_neg (by simpa using h)]
    rfl
  let s : State := ⟨2, discarded, best, history, seen.insert parallelText⟩
  refine ⟨(s.consider { parallelNest with cost := some 1.0 }).recordRound, ?_, ?_⟩
  · rw [scoreNeighbors, if_neg hgo, neighbors_tree, ok_bind, visitAll, hvisit]
    rfl
  · rw [explored_recordRound, explored_consider]

theorem scoreNeighbors_parallel {s : State} (hs : s.explored = 2) :
    scoreNeighbors context parameters (.constant 1.0) s { parallelNest with cost := some 1.0 } =
      .ok (s.recordRound, []) := by
  obtain ⟨explored, discarded, best, history, seen⟩ := s
  cases hs
  rfl

theorem enter_tree : ∃ discarded best history seen,
    enter context { roots := tree {}, cost := some 1.0 } = .ok ⟨1, discarded, best, history, seen⟩ ∧
      parallelText ∉ seen :=
  ⟨_, _, _, _, rfl, not_mem_insert_empty (by decide)⟩

theorem exists_search (draws : Draws) (earlier : State) : ∃ s, SearchMethod.exhaustive.search context parameters
    { roots := tree {} } (.constant 1.0) draws earlier = .ok s ∧ s.explored = 2 := by
  have hprice : price { roots := tree {} } (.constant 1.0) = .ok { roots := tree {}, cost := some 1.0 } := rfl
  obtain ⟨discarded, best, history, seen, henter, hfree⟩ := enter_tree
  obtain ⟨s, hround, hexplored⟩ := scoreNeighbors_tree discarded best history hfree
  refine ⟨s.recordRound, ?_, ?_⟩
  · rw [SearchMethod.search_eq, hprice, ok_bind, henter, ok_bind, lift_eq_ok]
    change descend _ _ _ (1 + 1) _ _ = _
    have hfresh : ¬ State.isSpent ⟨1, discarded, best, history, seen⟩ parameters := Bool.false_ne_true
    have hgo : ¬ s.isSpent parameters := by
      rw [State.isSpent, hexplored]
      exact Bool.false_ne_true
    rw [descend_succ, if_neg hfresh, hround, ok_bind, descendAll, descend_succ, if_neg hgo,
      scoreNeighbors_parallel hexplored, ok_bind, descendAll, ok_bind, descendAll]
  · rw [explored_recordRound, hexplored]

theorem reachable : Nest.Reachable context { roots := tree {} } := .initial rfl

theorem named : program.NamedByIdentifiers := ⟨by decide +kernel, by decide +kernel⟩

end SingleIteration

open SingleIteration in
theorem exhaustive_covers_singleIteration : ∃ s first asked,
    SearchMethod.exhaustive.search context parameters { roots := tree {} } (.constant 1.0) (fun _ => 0) {} = .ok s ∧
    s.explored = 2 ∧
    Asks .fault (SearchMethod.exhaustive.search context parameters { roots := tree {} } · (fun _ => 0) {})
      (.constant 1.0) ({ roots := tree {} } :: asked) s ∧
    Covers context parameters { roots := tree {} } first asked ∧
    ((∀ n ∈ asked, ∀ m, Reaches context { roots := tree {} } m → m.roots = n.roots → n.depth ≤ m.depth) →
      ∀ m, Reaches context { roots := tree {} } m → m.depth ≤ parameters.maxDepth →
        ∃ n ∈ first :: asked, n.roots = m.roots) := by
  obtain ⟨s, hs, hexplored⟩ := SingleIteration.exists_search (fun _ => 0) {}
  obtain ⟨first, asked, -, hasks, hcovers, -, -, hcomplete⟩ := exhaustive_covers context parameters
    { roots := tree {} } (.constant 1.0) (fun _ => 0) {} s rfl (fun n => ⟨1.0, rfl⟩) hs (by rw [hexplored]; decide)
  exact ⟨s, first, asked, hs, hexplored, hasks, hcovers, hcomplete description program build_eq rfl named reachable⟩

end LoopNest
