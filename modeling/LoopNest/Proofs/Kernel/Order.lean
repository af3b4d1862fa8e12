import LoopNest.Proofs.Kernel.Trace
import Mathlib.Data.List.Pairwise

/-!
The orders in which a kernel with concurrent loops may run. Iterations of a concurrent loop interleave, each
of them in an order that its body may run in; everything else stays in sequence. Instances that may trade
places are in different iterations of one activation, so a run does not depend on the order when the steps
of such instances commute.
-/

namespace LoopNest

/-- The parts merged into one list, the elements of each part in their order. -/
inductive Interleaving {α : Type} : List (List α) → List α → Prop
  | done {parts : List (List α)} (h : ∀ part ∈ parts, part = []) : Interleaving parts []
  | next {before after : List (List α)} {x : α} {part whole : List α}
      (h : Interleaving (before ++ part :: after) whole) :
      Interleaving (before ++ (x :: part) :: after) (x :: whole)

def Instance.Apart (i j : Instance) : Prop :=
  ∃ a ∈ i.concurrent, ∃ b ∈ j.concurrent, a.loop = b.loop ∧ a.around = b.around ∧ a.value ≠ b.value

namespace Kernel

def PartsOf (body : Int → List Instance → Prop) : Nat → Int → List (List Instance) → Prop
  | 0, _, parts => parts = []
  | count + 1, v, parts => ∃ part rest, body v part ∧ PartsOf body count (v + 1) rest ∧ parts = part :: rest

mutual

def OrderOf (env : Env) (concurrent : List Iteration) : Node → List Instance → Prop
  | .leaf st, o => o = [⟨st, env, concurrent⟩]
  | .loop r body, o => ∃ lower upper parts, r.bounds env = .ok (lower, upper) ∧
      PartsOf (fun v part => OrderOfAll (v :: env) (r.inside env concurrent v) body part)
        (upper - lower).toNat lower parts ∧
      if r.concurrent then Interleaving parts o else o = parts.flatten

def OrderOfAll (env : Env) (concurrent : List Iteration) : List Node → List Instance → Prop
  | [], o => o = []
  | n :: ns, o => ∃ first rest, OrderOf env concurrent n first ∧ OrderOfAll env concurrent ns rest ∧
      o = first ++ rest

end

def Order (k : Kernel) (o : List Instance) : Prop := OrderOfAll [] [] k.body o

end Kernel

namespace Interleaving

variable {α : Type}

theorem cons_nil {parts : List (List α)} {whole : List α} (h : Interleaving parts whole) :
    Interleaving ([] :: parts) whole := by
  induction h with
  | done h => exact .done (List.forall_mem_cons.2 ⟨rfl, h⟩)
  | next _ ih =>
    rw [← List.cons_append] at ih ⊢
    exact .next ih

theorem flatten (parts : List (List α)) : Interleaving parts parts.flatten := by
  induction parts with
  | nil => exact .done fun _ h => absurd h List.not_mem_nil
  | cons part parts ih =>
    induction part with
    | nil => exact ih.cons_nil
    | cons x part ihx =>
      rw [← List.nil_append ((x :: part) :: parts)]
      exact .next ihx

theorem perm {parts : List (List α)} {whole : List α} (h : Interleaving parts whole) :
    whole.Perm parts.flatten := by
  induction h with
  | done h => rw [List.flatten_eq_nil_iff.2 h]
  | @next before after x part whole _ ih =>
    have hflat : (before ++ (x :: part) :: after).flatten =
        before.flatten ++ x :: (part ++ after.flatten) := by simp
    rw [hflat]
    refine (ih.cons x).trans ?_
    simp only [List.flatten_append, List.flatten_cons]
    exact List.perm_middle.symm

end Interleaving

namespace Kernel

section Run

variable {σ : Type} (step : Instance → σ → σ)

def runAll (t : List Instance) (s : σ) : σ := t.foldl (fun s i => step i s) s

@[simp] theorem runAll_nil (s : σ) : runAll step [] s = s := rfl

@[simp] theorem runAll_cons (i : Instance) (t : List Instance) (s : σ) :
    runAll step (i :: t) s = runAll step t (step i s) := rfl

@[simp] theorem runAll_append (t u : List Instance) (s : σ) :
    runAll step (t ++ u) s = runAll step u (runAll step t s) := by
  simp [runAll]

def Commute (i j : Instance) : Prop := ∀ s, step i (step j s) = step j (step i s)

variable {step}

theorem runAll_comm {i : Instance} {t : List Instance} (h : ∀ j ∈ t, Commute step j i) (s : σ) :
    step i (runAll step t s) = runAll step t (step i s) := by
  induction t generalizing s with
  | nil => rfl
  | cons j t ih =>
    rw [runAll_cons, runAll_cons, ih (fun k hk => h k (List.mem_cons_of_mem j hk)),
      h j List.mem_cons_self]

theorem runAll_of_interleaving {parts : List (List Instance)} {whole : List Instance}
    (h : Interleaving parts whole)
    (hcomm : parts.Pairwise fun a b => ∀ i ∈ a, ∀ j ∈ b, Commute step i j) (s : σ) :
    runAll step whole s = runAll step parts.flatten s := by
  induction h generalizing s with
  | done h => rw [List.flatten_eq_nil_iff.2 h]
  | @next before after x part whole _ ih =>
    obtain ⟨hbefore, hafter, hacross⟩ := List.pairwise_append.1 hcomm
    obtain ⟨hpart, hafter⟩ := List.pairwise_cons.1 hafter
    have hcomm' : (before ++ part :: after).Pairwise fun a b => ∀ i ∈ a, ∀ j ∈ b, Commute step i j := by
      refine List.pairwise_append.2 ⟨hbefore, List.pairwise_cons.2 ⟨?_, hafter⟩, ?_⟩
      · exact fun b hb i hi => hpart b hb i (List.mem_cons_of_mem x hi)
      · intro a ha b hb i hi j hj
        rcases List.mem_cons.1 hb with rfl | hb
        · exact hacross a ha (x :: b) List.mem_cons_self i hi j (List.mem_cons_of_mem x hj)
        · exact hacross a ha b (List.mem_cons_of_mem _ hb) i hi j hj
    -- In sequence the first instance waits for the parts before its own.
    have hx : ∀ j ∈ before.flatten, Commute step j x := by
      intro j hj
      obtain ⟨a, ha, hj⟩ := List.mem_flatten.1 hj
      exact hacross a ha (x :: part) List.mem_cons_self j hj x List.mem_cons_self
    rw [runAll_cons, ih hcomm']
    simp only [List.flatten_append, List.flatten_cons, runAll_append, runAll_cons]
    rw [runAll_comm hx]

end Run

theorem mem_inside_of_mem {r : Range} {env : Env} {concurrent : List Iteration} {v : Int} {a : Iteration}
    (h : a ∈ concurrent) : a ∈ r.inside env concurrent v := by
  rw [Range.inside]
  split
  · exact List.mem_append_left _ h
  · exact h

theorem iteration_mem_inside {r : Range} (hr : r.concurrent = true) (env : Env)
    (concurrent : List Iteration) (v : Int) : ⟨r.number, r.dim, env, v⟩ ∈ r.inside env concurrent v := by
  rw [Range.inside, if_pos hr]
  exact List.mem_append_right _ (List.mem_singleton_self _)

mutual

theorem concurrent_of_traceNode {env : Env} {concurrent : List Iteration} (n : Node) {t : List Instance}
    (ht : traceNode env concurrent n = .ok t) {i : Instance} (hi : i ∈ t) {a : Iteration}
    (ha : a ∈ concurrent) : a ∈ i.concurrent := by
  cases n with
  | leaf st =>
    cases ht
    rwa [List.mem_singleton.1 hi]
  | loop r body =>
    obtain ⟨lower, upper, -, ht⟩ := traceNode_loop_eq_ok.1 ht
    obtain ⟨v, u, -, -, hu, hi⟩ := mem_traceEach ht hi
    exact concurrent_of_traceNodes body hu hi (mem_inside_of_mem ha)

theorem concurrent_of_traceNodes {env : Env} {concurrent : List Iteration} (ns : List Node)
    {t : List Instance} (ht : traceNodes env concurrent ns = .ok t) {i : Instance} (hi : i ∈ t)
    {a : Iteration} (ha : a ∈ concurrent) : a ∈ i.concurrent := by
  cases ns with
  | nil => cases ht; cases hi
  | cons n ns =>
    obtain ⟨first, rest, hf, hr, rfl⟩ := traceNodes_cons_eq_ok.1 ht
    rcases List.mem_append.1 hi with hi | hi
    · exact concurrent_of_traceNode n hf hi ha
    · exact concurrent_of_traceNodes ns hr hi ha

end

theorem apart_of_iterations {r : Range} (hr : r.concurrent = true) {env : Env}
    {concurrent : List Iteration} {body : List Node} {v w : Int} (hvw : v ≠ w) {t u : List Instance}
    (ht : traceNodes (v :: env) (r.inside env concurrent v) body = .ok t)
    (hu : traceNodes (w :: env) (r.inside env concurrent w) body = .ok u) {i j : Instance} (hi : i ∈ t)
    (hj : j ∈ u) : i.Apart j :=
  ⟨_, concurrent_of_traceNodes body ht hi (iteration_mem_inside hr env concurrent v), _,
    concurrent_of_traceNodes body hu hj (iteration_mem_inside hr env concurrent w), rfl, rfl, hvw⟩

theorem partsOf_traceEach {orders : Int → List Instance → Prop} {body : Int → Checked (List Instance)}
    (h : ∀ v u, body v = .ok u → orders v u) {count : Nat} {v : Int} {t : List Instance}
    (ht : traceEach body count v = .ok t) : ∃ parts, PartsOf orders count v parts ∧ t = parts.flatten := by
  induction count generalizing v t with
  | zero =>
    cases ht
    exact ⟨[], rfl, rfl⟩
  | succ count ih =>
    obtain ⟨first, rest, hf, hr, rfl⟩ := traceEach_succ_eq_ok.1 ht
    obtain ⟨parts, hparts, rfl⟩ := ih hr
    exact ⟨first :: parts, ⟨first, parts, h v first hf, hparts, rfl⟩, rfl⟩

mutual

theorem orderOf_trace {env : Env} {concurrent : List Iteration} (n : Node) {t : List Instance}
    (ht : traceNode env concurrent n = .ok t) : OrderOf env concurrent n t := by
  cases n with
  | leaf st =>
    cases ht
    exact rfl
  | loop r body =>
    obtain ⟨lower, upper, hb, ht⟩ := traceNode_loop_eq_ok.1 ht
    have hbody (v : Int) (u : List Instance)
        (hu : traceNodes (v :: env) (r.inside env concurrent v) body = .ok u) :
        OrderOfAll (v :: env) (r.inside env concurrent v) body u := orderOfAll_trace body hu
    obtain ⟨parts, hparts, rfl⟩ := partsOf_traceEach hbody ht
    refine ⟨lower, upper, parts, hb, hparts, ?_⟩
    split
    · exact Interleaving.flatten parts
    · rfl

theorem orderOfAll_trace {env : Env} {concurrent : List Iteration} (ns : List Node) {t : List Instance}
    (ht : traceNodes env concurrent ns = .ok t) : OrderOfAll env concurrent ns t := by
  cases ns with
  | nil =>
    cases ht
    exact rfl
  | cons n ns =>
    obtain ⟨first, rest, hf, hr, rfl⟩ := traceNodes_cons_eq_ok.1 ht
    exact ⟨first, rest, orderOf_trace n hf, orderOfAll_trace ns hr, rfl⟩

end

theorem order_trace {k : Kernel} {t : List Instance} (ht : k.trace = .ok t) : k.Order t :=
  orderOfAll_trace k.body ht

section Independence

variable {σ : Type} {step : Instance → σ → σ}

/-- A rearrangement of the trace of the iteration with value `v`, which belongs to the trace `t`. -/
def Rearranges (body : Int → Checked (List Instance)) (t : List Instance) (v : Int)
    (part : List Instance) : Prop := ∃ u, body v = .ok u ∧ part.Perm u ∧ u ⊆ t

theorem Rearranges.mono {body : Int → Checked (List Instance)} {t u : List Instance} {v : Int}
    {part : List Instance} (h : Rearranges body t v part) (hs : t ⊆ u) : Rearranges body u v part := by
  obtain ⟨x, hx, hperm, hxt⟩ := h
  exact ⟨x, hx, hperm, List.Subset.trans hxt hs⟩

section Parts

variable {orders : Int → List Instance → Prop} {body : Int → Checked (List Instance)} {count : Nat} {v : Int}
  {parts : List (List Instance)} (hp : PartsOf orders count v parts) {t : List Instance}
  (ht : traceEach body count v = .ok t)
include hp ht

theorem rearranges_of_partsOf
    (h : ∀ w part u, orders w part → body w = .ok u → u ⊆ t → part.Perm u) :
    (∀ part ∈ parts, ∃ w, v ≤ w ∧ Rearranges body t w part) ∧
      parts.Pairwise fun a b => ∃ w w', w ≠ w' ∧ Rearranges body t w a ∧ Rearranges body t w' b := by
  induction count generalizing v parts t with
  | zero =>
    cases hp
    exact ⟨fun _ h => absurd h List.not_mem_nil, .nil⟩
  | succ count ih =>
    obtain ⟨part, rest, hpart, hrest, rfl⟩ := hp
    obtain ⟨first, u, hf, hu, rfl⟩ := traceEach_succ_eq_ok.1 ht
    obtain ⟨hmem, hpairwise⟩ := ih hrest hu fun w part' u' hp' hb hs =>
      h w part' u' hp' hb (List.subset_append_of_subset_right _ hs)
    have hright : u ⊆ first ++ u := List.subset_append_right _ _
    -- the values behind the first are larger, so its part is told from all of theirs
    have hhead : Rearranges body (first ++ u) v part :=
      ⟨first, hf, h v part first hpart hf (List.subset_append_left _ _), List.subset_append_left _ _⟩
    refine ⟨?_, List.pairwise_cons.2 ⟨?_, hpairwise.imp ?_⟩⟩
    · intro a ha
      rcases List.mem_cons.1 ha with rfl | ha
      · exact ⟨v, Int.le_refl v, hhead⟩
      · obtain ⟨w, hw, hrearranges⟩ := hmem a ha
        exact ⟨w, by omega, hrearranges.mono hright⟩
    · intro a ha
      obtain ⟨w, hw, hrearranges⟩ := hmem a ha
      exact ⟨v, w, by omega, hhead, hrearranges.mono hright⟩
    · rintro a b ⟨w, w', hne, ha, hb⟩
      exact ⟨w, w', hne, ha.mono hright, hb.mono hright⟩

theorem partsOf_runAll
    (h : ∀ w part u, orders w part → body w = .ok u → u ⊆ t →
      part.Perm u ∧ ∀ s, runAll step part s = runAll step u s) :
    parts.flatten.Perm t ∧ ∀ s, runAll step parts.flatten s = runAll step t s := by
  induction count generalizing v parts t with
  | zero =>
    cases hp
    cases ht
    exact ⟨.nil, fun _ => rfl⟩
  | succ count ih =>
    obtain ⟨part, rest, hpart, hrest, rfl⟩ := hp
    obtain ⟨first, u, hf, hu, rfl⟩ := traceEach_succ_eq_ok.1 ht
    obtain ⟨hperm, hrun⟩ := h v part first hpart hf (List.subset_append_left _ _)
    obtain ⟨hperm', hrun'⟩ := ih hrest hu fun w part' u' hp' hb hs =>
      h w part' u' hp' hb (List.subset_append_of_subset_right _ hs)
    rw [List.flatten_cons]
    refine ⟨hperm.append hperm', fun s => ?_⟩
    rw [runAll_append, runAll_append, hrun, hrun']

end Parts

mutual

theorem runAll_orderOf {env : Env} {concurrent : List Iteration} (n : Node) {o t : List Instance}
    (ho : OrderOf env concurrent n o) (ht : traceNode env concurrent n = .ok t)
    (hcomm : ∀ i ∈ t, ∀ j ∈ t, i.Apart j → Commute step i j) :
    o.Perm t ∧ ∀ s, runAll step o s = runAll step t s := by
  cases n with
  | leaf st =>
    cases ho
    cases ht
    exact ⟨.refl _, fun _ => rfl⟩
  | loop r body =>
    obtain ⟨lower, upper, hb, ht⟩ := traceNode_loop_eq_ok.1 ht
    obtain ⟨lower', upper', parts, hb', hparts, ho⟩ := ho
    cases hb.symm.trans hb'
    -- what the induction gives for the body at any value
    have hbody (w : Int) (part u : List Instance)
        (hpart : OrderOfAll (w :: env) (r.inside env concurrent w) body part)
        (hu : traceNodes (w :: env) (r.inside env concurrent w) body = .ok u) (hs : u ⊆ t) :
        part.Perm u ∧ ∀ s, runAll step part s = runAll step u s :=
      runAll_orderOfAll body hpart hu fun i hi j hj => hcomm i (hs hi) j (hs hj)
    obtain ⟨hperm, hrun⟩ := partsOf_runAll hparts ht hbody
    split at ho
    · next hconcurrent =>
      have hpairwise := (rearranges_of_partsOf hparts ht fun w part u h hu hs => (hbody w part u h hu hs).1).2
      refine ⟨ho.perm.trans hperm, fun s => ?_⟩
      rw [← hrun]
      apply runAll_of_interleaving ho
      apply hpairwise.imp
      -- Two parts rearrange the traces of two iterations, which puts their instances apart.
      rintro a b ⟨w, w', hne, ⟨u, hu, hau, hut⟩, u', hu', hbu', hut'⟩ i hi j hj
      have hi := hau.subset hi
      have hj := hbu'.subset hj
      have hapart : i.Apart j := apart_of_iterations hconcurrent hne hu hu' hi hj
      exact hcomm i (hut hi) j (hut' hj) hapart
    · cases ho
      exact ⟨hperm, hrun⟩

theorem runAll_orderOfAll {env : Env} {concurrent : List Iteration} (ns : List Node) {o t : List Instance}
    (ho : OrderOfAll env concurrent ns o) (ht : traceNodes env concurrent ns = .ok t)
    (hcomm : ∀ i ∈ t, ∀ j ∈ t, i.Apart j → Commute step i j) :
    o.Perm t ∧ ∀ s, runAll step o s = runAll step t s := by
  cases ns with
  | nil =>
    cases ho
    cases ht
    exact ⟨.refl _, fun _ => rfl⟩
  | cons n ns =>
    obtain ⟨first, rest, hfirst, hrest, rfl⟩ := ho
    obtain ⟨t₁, t₂, ht₁, ht₂, rfl⟩ := traceNodes_cons_eq_ok.1 ht
    obtain ⟨hperm, hrun⟩ := runAll_orderOf n hfirst ht₁ fun i hi j hj =>
      hcomm i (List.mem_append_left _ hi) j (List.mem_append_left _ hj)
    obtain ⟨hperm', hrun'⟩ := runAll_orderOfAll ns hrest ht₂ fun i hi j hj =>
      hcomm i (List.mem_append_right _ hi) j (List.mem_append_right _ hj)
    refine ⟨hperm.append hperm', fun s => ?_⟩
    rw [runAll_append, runAll_append, hrun, hrun']

end

theorem runAll_order {k : Kernel} {o t : List Instance} (ho : k.Order o) (ht : k.trace = .ok t)
    (hcomm : ∀ i ∈ t, ∀ j ∈ t, i.Apart j → Commute step i j) :
    o.Perm t ∧ ∀ s, runAll step o s = runAll step t s := runAll_orderOfAll k.body ho ht hcomm

end Independence

end Kernel

end LoopNest
