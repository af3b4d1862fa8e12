import LoopNest.Evaluation.Basic
import Mathlib.Data.List.Induction

namespace LoopNest

def Evaluator.Agrees (e e' : Evaluator) (ns : List Nest) : Prop := ∀ n ∈ ns, e'.evaluate n = e.evaluate n

/-- `run` ends in `a` after it has handed the nests `asked`, in their order, to the evaluator `e`. Faults of
the evaluator come out of `run` as `stop` has them. -/
structure Asks {ε α : Type} (stop : Fault → ε) (run : Evaluator → Except ε α) (e : Evaluator)
    (asked : List Nest) (a : α) : Prop where
  ends : ∀ e', e.Agrees e' asked → run e' = .ok a
  stops : ∀ before n after, asked = before ++ n :: after → ∀ e' f, e.Agrees e' before →
    e'.evaluate n = .error (.fault f) → run e' = .error (stop f)

def Evaluator.faulting (e : Evaluator) (faults : Nest → Option Fault) : Evaluator where
  name := e.name
  evaluate n := match faults n with
    | some f => .error (.fault f)
    | none => e.evaluate n

theorem Evaluator.agrees_faulting (e : Evaluator) (faults : Nest → Option Fault) {ns : List Nest}
    (h : ∀ n ∈ ns, faults n = none) : e.Agrees (e.faulting faults) ns := by
  intro n hn
  simp only [faulting, h n hn]

theorem Evaluator.evaluate_faulting (e : Evaluator) {faults : Nest → Option Fault} {n : Nest} {f : Fault}
    (h : faults n = some f) : (e.faulting faults).evaluate n = .error (.fault f) := by
  simp only [faulting, h]

namespace Evaluator.Agrees

variable {e e' : Evaluator} {ns ms : List Nest}

theorem append_iff : e.Agrees e' (ns ++ ms) ↔ e.Agrees e' ns ∧ e.Agrees e' ms := List.forall_mem_append

theorem cons_iff {n : Nest} : e.Agrees e' (n :: ns) ↔ e'.evaluate n = e.evaluate n ∧ e.Agrees e' ns :=
  List.forall_mem_cons

end Evaluator.Agrees

namespace Asks

variable {ε α β : Type} {stop : Fault → ε} {e : Evaluator} {asked more : List Nest} {a : α} {b : β}

theorem eq_ok {run : Evaluator → Except ε α} (h : Asks stop run e asked a) : run e = .ok a :=
  h.ends e fun _ _ => rfl

theorem given {x : Except ε α} (hx : x = .ok a) : Asks stop (fun _ => x) e [] a :=
  ⟨fun _ _ => hx, fun before n after h => by simp at h⟩

theorem cons {run rest : Evaluator → Except ε α} {n : Nest}
    (hanswer : ∀ e', e'.evaluate n = e.evaluate n → run e' = rest e')
    (hfault : ∀ e' f, e'.evaluate n = .error (.fault f) → run e' = .error (stop f))
    (hrest : Asks stop rest e asked a) : Asks stop run e (n :: asked) a := by
  constructor
  · intro e' hagrees
    obtain ⟨hn, hasked⟩ := Evaluator.Agrees.cons_iff.1 hagrees
    rw [hanswer e' hn]
    exact hrest.ends e' hasked
  · intro before m after hsplit e' f hagrees hm
    cases before with
    | nil =>
      cases hsplit
      exact hfault e' f hm
    | cons k before =>
      cases hsplit
      obtain ⟨hk, hbefore⟩ := Evaluator.Agrees.cons_iff.1 hagrees
      rw [hanswer e' hk]
      exact hrest.stops before m after rfl e' f hbefore hm

theorem bind {run : Evaluator → Except ε α} {rest : Evaluator → α → Except ε β}
    (hrun : Asks stop run e asked a) (hrest : Asks stop (rest · a) e more b) :
    Asks stop (fun e => run e >>= rest e) e (asked ++ more) b := by
  constructor
  · intro e' hagrees
    obtain ⟨hasked, hmore⟩ := Evaluator.Agrees.append_iff.1 hagrees
    rw [hrun.ends e' hasked, ok_bind]
    exact hrest.ends e' hmore
  · intro before n after hsplit e' f hagrees hfault
    rcases List.append_eq_append_iff.1 hsplit with ⟨between, rfl, hmore⟩ | ⟨between, rfl, hlast⟩
    · obtain ⟨hasked, hbetween⟩ := Evaluator.Agrees.append_iff.1 hagrees
      rw [hrun.ends e' hasked, ok_bind]
      exact hrest.stops between n after hmore e' f hbetween hfault
    · cases between with
      | nil =>
        rw [List.append_nil] at hrun
        rw [hrun.ends e' hagrees, ok_bind]
        exact hrest.stops [] n after hlast.symm e' f nofun hfault
      | cons m between =>
        obtain ⟨rfl, -⟩ := List.cons.inj hlast
        rw [hrun.stops before n between rfl e' f hagrees hfault]
        rfl

theorem bindGiven {run : Evaluator → Except ε α} {rest : α → Except ε β} (hrun : Asks stop run e asked a)
    (hrest : rest a = .ok b) : Asks stop (fun e => run e >>= rest) e asked b := by
  have hboth : Asks stop (fun e => run e >>= (fun _ => rest) e) e (asked ++ []) b := hrun.bind (.given hrest)
  rwa [List.append_nil] at hboth

theorem lift {run : Evaluator → Checked α} (h : Asks id run e asked a) :
    Asks .fault (fun e => (liftM (run e) : Outcome ε α)) e asked a := by
  constructor
  · intro e' hagrees
    rw [h.ends e' hagrees, lift_ok]
  · intro before n after hsplit e' f hagrees hfault
    rw [h.stops before n after hsplit e' f hagrees hfault, lift_error]
    rfl

section Unique

variable {run : Evaluator → Except ε α} {asked' : List Nest} {a' : α}

open Classical in
theorem isPrefix (hstop : Function.Injective stop) (h : Asks stop run e asked a) (h' : Asks stop run e asked' a')
    (hnodup : asked.Nodup) (hnodup' : asked'.Nodup) {before after : List Nest} (hsplit : asked = before ++ after) :
    before <+: asked' := by
  -- by the number of evaluations the two begin with alike
  induction before using List.reverseRecOn generalizing after with
  | nil => exact List.nil_prefix
  | append_singleton before n ih =>
    rw [List.append_assoc, List.singleton_append] at hsplit
    obtain ⟨others, rfl⟩ := ih hsplit
    have hn : n ∉ before := by
      rw [hsplit] at hnodup
      exact fun hn => (List.nodup_append.1 hnodup).2.2 n hn n List.mem_cons_self rfl
    cases others with
    | nil =>
      -- the second computation would not notice a fault at `n`
      let faults : Nest → Option Fault := fun x => if x = n then some .overflow else none
      have hagrees : e.Agrees (e.faulting faults) before :=
        e.agrees_faulting faults fun x hx => if_neg (ne_of_mem_of_not_mem hx hn)
      have hok := h'.ends _ (by rwa [List.append_nil])
      rw [h.stops before n after hsplit _ .overflow hagrees (e.evaluate_faulting (if_pos rfl))] at hok
      cases hok
    | cons m others =>
      by_cases heq : m = n
      · exact ⟨others, by rw [heq, List.append_assoc, List.singleton_append]⟩
      have hm : m ∉ before := fun hm => (List.nodup_append.1 hnodup').2.2 m hm m List.mem_cons_self rfl
      -- the two would end in different faults
      let faults : Nest → Option Fault := fun x =>
        if x = n then some .overflow else if x = m then some .indexOutOfRange else none
      have hagrees : e.Agrees (e.faulting faults) before := e.agrees_faulting faults fun x hx =>
        (if_neg (ne_of_mem_of_not_mem hx hn)).trans (if_neg (ne_of_mem_of_not_mem hx hm))
      have hfirst := h.stops before n after hsplit _ .overflow hagrees (e.evaluate_faulting (if_pos rfl))
      have hsecond := h'.stops before m others rfl _ .indexOutOfRange hagrees
        (e.evaluate_faulting ((if_neg heq).trans (if_pos rfl)))
      rw [hfirst] at hsecond
      cases hstop (Except.error.inj hsecond)

theorem unique (hstop : Function.Injective stop) (h : Asks stop run e asked a) (h' : Asks stop run e asked' a')
    (hnodup : asked.Nodup) (hnodup' : asked'.Nodup) : asked = asked' := by
  have hsub := isPrefix hstop h h' hnodup hnodup' (List.append_nil _).symm
  have hsub' := isPrefix hstop h' h hnodup' hnodup (List.append_nil _).symm
  exact hsub.eq_of_length_le hsub'.length_le

end Unique

end Asks

def Triple {α : Type} (e : Evaluator) (pre : List Nest → Prop) (run : Evaluator → Checked α)
    (post : List Nest → α → Prop) : Prop :=
  ∀ asked, pre asked → ∀ a, run e = .ok a → ∃ more, Asks id run e more a ∧ post (asked ++ more) a

namespace Triple

variable {α β : Type} {e : Evaluator} {pre : List Nest → Prop} {post : List Nest → α → Prop}
  {post' : List Nest → β → Prop}

theorem given {x : Checked α} (h : ∀ asked, pre asked → ∀ a, x = .ok a → post asked a) :
    Triple e pre (fun _ => x) post := by
  intro asked hpre a ha
  refine ⟨[], .given ha, ?_⟩
  rw [List.append_nil]
  exact h asked hpre a ha

theorem pure {a : α} (h : ∀ asked, pre asked → post asked a) : Triple e pre (fun _ => .ok a) post := by
  apply given
  rintro asked hpre _ ⟨⟩
  exact h asked hpre

theorem bind {run : Evaluator → Checked α} {rest : Evaluator → α → Checked β} (hrun : Triple e pre run post)
    (hrest : ∀ a, Triple e (post · a) (rest · a) post') : Triple e pre (fun e => run e >>= rest e) post' := by
  intro asked hpre b hb
  obtain ⟨a, ha, hb⟩ := bind_eq_ok.1 hb
  obtain ⟨more, hasks, hpost⟩ := hrun asked hpre a ha
  obtain ⟨later, hlater, hpost'⟩ := hrest a (asked ++ more) hpost b hb
  refine ⟨more ++ later, hasks.bind hlater, ?_⟩
  rwa [← List.append_assoc]

theorem after {x : Checked α} {rest : Evaluator → α → Checked β}
    (h : ∀ a, x = .ok a → Triple e pre (rest · a) post') : Triple e pre (fun e => x >>= rest e) post' := by
  intro asked hpre b hb
  obtain ⟨a, ha, hb⟩ := bind_eq_ok.1 hb
  rw [ha]
  exact h a ha asked hpre b hb

theorem weaken {pre' : List Nest → Prop} {run : Evaluator → Checked α} (hpre : ∀ asked, pre asked → pre' asked)
    (h : Triple e pre' run post) : Triple e pre run post := fun asked hasked => h asked (hpre asked hasked)

theorem ite {p : Prop} [Decidable p] {run run' : Evaluator → Checked α} (hpos : p → Triple e pre run post)
    (hneg : ¬ p → Triple e pre run' post) : Triple e pre (fun e => if p then run e else run' e) post := by
  by_cases hp : p
  · simp only [if_pos hp]
    exact hpos hp
  · simp only [if_neg hp]
    exact hneg hp

theorem congr {run run' : Evaluator → Checked α} (h : Triple e pre run post) (heq : ∀ e, run' e = run e) :
    Triple e pre run' post := by
  rwa [funext heq]

end Triple

end LoopNest
