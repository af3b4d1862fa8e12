import LoopNest.Kernel.Walk

namespace LoopNest.Kernel

def traceEach (body : Int → Checked (List Instance)) : Nat → Int → Checked (List Instance)
  | 0, _ => .ok []
  | count + 1, v => do
    let first ← body v
    let rest ← traceEach body count (v + 1)
    return first ++ rest

mutual

def traceNode (env : Env) (concurrent : List Iteration) : Node → Checked (List Instance)
  | .leaf st => .ok [⟨st, env, concurrent⟩]
  | .loop r body => do
    let (lower, upper) ← r.bounds env
    traceEach (fun v => traceNodes (v :: env) (r.inside env concurrent v) body) (upper - lower).toNat lower

def traceNodes (env : Env) (concurrent : List Iteration) : List Node → Checked (List Instance)
  | [] => .ok []
  | n :: ns => do
    let first ← traceNode env concurrent n
    let rest ← traceNodes env concurrent ns
    return first ++ rest

end

def trace (k : Kernel) : Checked (List Instance) := traceNodes [] [] k.body

theorem traceEach_succ_eq_ok {body : Int → Checked (List Instance)} {count : Nat} {v : Int}
    {t : List Instance} : traceEach body (count + 1) v = .ok t ↔
      ∃ first rest, body v = .ok first ∧ traceEach body count (v + 1) = .ok rest ∧ t = first ++ rest := by
  rw [traceEach]
  exact bind₂_eq_ok

theorem traceNodes_cons_eq_ok {env : Env} {concurrent : List Iteration} {n : Node} {ns : List Node}
    {t : List Instance} : traceNodes env concurrent (n :: ns) = .ok t ↔
      ∃ first rest, traceNode env concurrent n = .ok first ∧ traceNodes env concurrent ns = .ok rest ∧
        t = first ++ rest := by
  rw [traceNodes]
  exact bind₂_eq_ok

theorem traceNode_loop_eq_ok {env : Env} {concurrent : List Iteration} {r : Range} {body : List Node}
    {t : List Instance} : traceNode env concurrent (.loop r body) = .ok t ↔
      ∃ lower upper, r.bounds env = .ok (lower, upper) ∧
        traceEach (fun v => traceNodes (v :: env) (r.inside env concurrent v) body)
          (upper - lower).toNat lower = .ok t := by
  simp only [traceNode, bind_eq_ok, Prod.exists]

theorem mem_traceEach {body : Int → Checked (List Instance)} {count : Nat} {v : Int} {t : List Instance}
    (ht : traceEach body count v = .ok t) {i : Instance} (hi : i ∈ t) :
    ∃ w u, v ≤ w ∧ w < v + count ∧ body w = .ok u ∧ i ∈ u := by
  induction count generalizing v t with
  | zero => cases ht; cases hi
  | succ count ih =>
    obtain ⟨first, rest, hf, hr, rfl⟩ := traceEach_succ_eq_ok.1 ht
    rcases List.mem_append.1 hi with hi | hi
    · exact ⟨v, first, by omega, by omega, hf, hi⟩
    · obtain ⟨w, u, hv, hw, hu, hi⟩ := ih hr hi
      exact ⟨w, u, by omega, by omega, hu, hi⟩

mutual

def statementsOf : Node → List Statement
  | .leaf st => [st]
  | .loop _ body => statementsOfAll body

def statementsOfAll : List Node → List Statement
  | [] => []
  | n :: ns => statementsOf n ++ statementsOfAll ns

end

mutual

theorem statement_mem_traceNode {env : Env} {concurrent : List Iteration} (n : Node) {t : List Instance}
    (ht : traceNode env concurrent n = .ok t) {i : Instance} (hi : i ∈ t) :
    i.statement ∈ statementsOf n := by
  cases n with
  | leaf st =>
    cases ht
    rw [List.mem_singleton.1 hi]
    exact List.mem_singleton_self st
  | loop r body =>
    obtain ⟨lower, upper, -, ht⟩ := traceNode_loop_eq_ok.1 ht
    obtain ⟨v, u, -, -, hu, hi⟩ := mem_traceEach ht hi
    exact statement_mem_traceNodes body hu hi

theorem statement_mem_traceNodes {env : Env} {concurrent : List Iteration} (ns : List Node)
    {t : List Instance} (ht : traceNodes env concurrent ns = .ok t) {i : Instance} (hi : i ∈ t) :
    i.statement ∈ statementsOfAll ns := by
  cases ns with
  | nil => cases ht; cases hi
  | cons n ns =>
    obtain ⟨first, rest, hf, hr, rfl⟩ := traceNodes_cons_eq_ok.1 ht
    rw [statementsOfAll, List.mem_append]
    rcases List.mem_append.1 hi with hi | hi
    · exact Or.inl (statement_mem_traceNode n hf hi)
    · exact Or.inr (statement_mem_traceNodes ns hr hi)

end

section Fold

variable {ε σ : Type} (visit : Instance → σ → Outcome ε σ)

def visitAll (t : List Instance) (s : σ) : Outcome ε σ := t.foldlM (fun s i => visit i s) s

@[simp] theorem visitAll_nil (s : σ) : visitAll visit [] s = .ok s := rfl

@[simp] theorem visitAll_cons (i : Instance) (t : List Instance) (s : σ) :
    visitAll visit (i :: t) s = (do let s ← visit i s; visitAll visit t s) := rfl

theorem visitAll_append (t u : List Instance) (s : σ) :
    visitAll visit (t ++ u) s = (do let s ← visitAll visit t s; visitAll visit u s) := by
  simp only [visitAll, List.foldlM_append]

theorem forEach_of_traceEach {step : Int → σ → Outcome ε σ} {body : Int → Checked (List Instance)}
    (hb : ∀ v t, body v = .ok t → ∀ s, step v s = visitAll visit t s) {count : Nat} {v : Int}
    {t : List Instance} (ht : traceEach body count v = .ok t) (s : σ) :
    forEach step count v s = visitAll visit t s := by
  induction count generalizing v t s with
  | zero => cases ht; rfl
  | succ count ih =>
    obtain ⟨first, rest, hf, hr, rfl⟩ := traceEach_succ_eq_ok.1 ht
    rw [forEach, visitAll_append, hb v first hf]
    congr 1
    funext s
    exact ih hr s

theorem traceEach_of_forEach {step : Int → σ → Outcome ε σ} {body : Int → Checked (List Instance)}
    (hb : ∀ v s s', step v s = .ok s' → ∃ t, body v = .ok t) {count : Nat} {v : Int} {s s' : σ}
    (h : forEach step count v s = .ok s') : ∃ t, traceEach body count v = .ok t := by
  induction count generalizing v s with
  | zero => exact ⟨[], rfl⟩
  | succ count ih =>
    obtain ⟨next, hn, h⟩ := bind_eq_ok.1 h
    obtain ⟨first, hf⟩ := hb v s next hn
    obtain ⟨rest, hr⟩ := ih h
    exact ⟨first ++ rest, traceEach_succ_eq_ok.2 ⟨first, rest, hf, hr, rfl⟩⟩

mutual

theorem walkNode_of_trace {env : Env} {concurrent : List Iteration} (n : Node) {t : List Instance}
    (ht : traceNode env concurrent n = .ok t) (s : σ) :
    walkNode visit env concurrent n s = visitAll visit t s := by
  cases n with
  | leaf st =>
    cases ht
    simp only [walkNode, visitAll_cons, visitAll_nil]
    exact (bind_pure _).symm
  | loop r body =>
    obtain ⟨lower, upper, hb, ht⟩ := traceNode_loop_eq_ok.1 ht
    simp only [walkNode, hb, lift_ok, ok_bind]
    exact forEach_of_traceEach visit (fun v t h s => walkNodes_of_trace body h s) ht s

theorem walkNodes_of_trace {env : Env} {concurrent : List Iteration} (ns : List Node)
    {t : List Instance} (ht : traceNodes env concurrent ns = .ok t) (s : σ) :
    walkNodes visit env concurrent ns s = visitAll visit t s := by
  cases ns with
  | nil => cases ht; rfl
  | cons n ns =>
    obtain ⟨first, rest, hf, hr, rfl⟩ := traceNodes_cons_eq_ok.1 ht
    rw [walkNodes, visitAll_append, walkNode_of_trace n hf]
    congr 1
    funext s
    exact walkNodes_of_trace ns hr s

end

mutual

theorem trace_of_walkNode {env : Env} {concurrent : List Iteration} (n : Node) {s s' : σ}
    (h : walkNode visit env concurrent n s = .ok s') : ∃ t, traceNode env concurrent n = .ok t := by
  cases n with
  | leaf st => exact ⟨_, rfl⟩
  | loop r body =>
    simp only [walkNode, bind_eq_ok, lift_eq_ok, Prod.exists] at h
    obtain ⟨lower, upper, hb, h⟩ := h
    obtain ⟨t, ht⟩ := traceEach_of_forEach (fun v s s' h => trace_of_walkNodes body h) h
    exact ⟨t, traceNode_loop_eq_ok.2 ⟨lower, upper, hb, ht⟩⟩

theorem trace_of_walkNodes {env : Env} {concurrent : List Iteration} (ns : List Node) {s s' : σ}
    (h : walkNodes visit env concurrent ns s = .ok s') : ∃ t, traceNodes env concurrent ns = .ok t := by
  cases ns with
  | nil => exact ⟨[], rfl⟩
  | cons n ns =>
    obtain ⟨next, hn, h⟩ := bind_eq_ok.1 h
    obtain ⟨first, hf⟩ := trace_of_walkNode n hn
    obtain ⟨rest, hr⟩ := trace_of_walkNodes ns h
    exact ⟨first ++ rest, traceNodes_cons_eq_ok.2 ⟨first, rest, hf, hr, rfl⟩⟩

end

theorem walk_of_trace {k : Kernel} {t : List Instance} (ht : k.trace = .ok t) (s : σ) :
    k.walk visit s = visitAll visit t s := walkNodes_of_trace visit k.body ht s

theorem walk_eq_ok_iff {k : Kernel} {s s' : σ} :
    k.walk visit s = .ok s' ↔ ∃ t, k.trace = .ok t ∧ visitAll visit t s = .ok s' := by
  constructor
  · intro h
    obtain ⟨t, ht⟩ := trace_of_walkNodes visit k.body h
    exact ⟨t, ht, (walk_of_trace visit ht s).symm.trans h⟩
  · rintro ⟨t, ht, h⟩
    rw [walk_of_trace visit ht s, h]

end Fold

end LoopNest.Kernel
