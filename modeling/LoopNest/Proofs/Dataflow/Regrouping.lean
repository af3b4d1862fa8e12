import LoopNest.Proofs.Dataflow.Refusal
import LoopNest.Proofs.Execution.Memory
import LoopNest.Proofs.Kernel.Grouping

/-!
Walks that differ in their grouping only. Where the values come from does not depend on the concurrent loops around
a visit, so all that a check can find in a new grouping is a conflict between two iterations. It finds none where
the activations have merely changed their names.
-/

namespace LoopNest

open LoopNest.Flow Touch Kernel

namespace Visit

def alone (v : Visit) : Visit := { v with concurrent := [] }

def move (f : Activation → Activation) (v : Visit) : Visit :=
  { v with concurrent := v.concurrent.map (Iteration.move f) }

variable {p : Program} {v w : Visit} {vs ws : List Visit}

theorem apart_move {f : Activation → Activation} (hf : Function.Injective f) :
    (v.move f).Apart (w.move f) ↔ v.Apart w := by
  constructor
  · rintro ⟨a, ha, b, hb, hloop, haround, hvalue⟩
    obtain ⟨a, hav, rfl⟩ := List.mem_map.1 ha
    obtain ⟨b, hbw, rfl⟩ := List.mem_map.1 hb
    have hactivation := hf (Prod.ext hloop haround)
    exact ⟨a, hav, b, hbw, congrArg Prod.fst hactivation, congrArg Prod.snd hactivation, hvalue⟩
  · rintro ⟨a, ha, b, hb, hloop, haround, hvalue⟩
    have hactivation : f (a.loop, a.around) = f (b.loop, b.around) := by rw [hloop, haround]
    exact ⟨_, List.mem_map_of_mem ha, _, List.mem_map_of_mem hb, congrArg Prod.fst hactivation,
      congrArg Prod.snd hactivation, hvalue⟩

theorem eq_of_obeys (hvs : ∀ v ∈ vs, v.Obeys p) (hws : ∀ w ∈ ws, w.Obeys p) (hid : vs.map id = ws.map id)
    (hconcurrent : vs.map concurrent = ws.map concurrent) : vs = ws := by
  induction vs generalizing ws with
  | nil => exact (List.map_eq_nil_iff.1 hid.symm).symm
  | cons v vs ih =>
    obtain _ | ⟨w, ws⟩ := ws
    · cases hid
    obtain ⟨hv, hbehind⟩ := List.forall_mem_cons.1 hvs
    obtain ⟨hw, hbehind'⟩ := List.forall_mem_cons.1 hws
    obtain ⟨hfirst, hids⟩ := List.cons.inj hid
    obtain ⟨hgroup, hgroups⟩ := List.cons.inj hconcurrent
    have hreads := hv.reads_eq hw hfirst
    have hstore := hv.store_eq hw hfirst
    obtain rfl : v = w := by
      cases v
      cases w
      simp only at hfirst hgroup hreads hstore
      rw [hfirst, hgroup, hreads, hstore]
    rw [ih hbehind hbehind' hids hgroups]

theorem alone_eq_of_obeys (hvs : ∀ v ∈ vs, v.Obeys p) (hws : ∀ w ∈ ws, w.Obeys p) (hid : vs.map id = ws.map id) :
    vs.map alone = ws.map alone := by
  have hlength := congrArg List.length hid
  rw [List.length_map, List.length_map] at hlength
  refine eq_of_obeys (p := p) (List.forall_mem_map.2 hvs) (List.forall_mem_map.2 hws) ?_ ?_
  · rwa [List.map_map, List.map_map]
  · rw [List.map_map, List.map_map]
    simp [Function.comp_def, alone, hlength]

end Visit

namespace Flow

variable {p : Program} {initial vs vs' : List Visit}

theorem lastWriter_alone (vs : List Visit) (a : Location) : lastWriter (vs.map Visit.alone) a = lastWriter vs a := by
  rw [lastWriter, List.foldl_map]
  rfl

theorem producersOf_alone (before : List Visit) (v : Visit) :
    producersOf (before.map Visit.alone) v.alone = producersOf before v := by
  have hlast : lastWriter (before.map Visit.alone) = lastWriter before := funext (lastWriter_alone before)
  rw [producersOf, hlast]
  rfl

theorem faithful_iff_alone : Faithful p initial vs ↔
    Faithful p initial (vs.map Visit.alone) ∧ ∀ v ∈ vs, ∀ w ∈ vs, v.Apart w → ¬ v.Clashes w := by
  have hid : (vs.map Visit.alone).map Visit.id = vs.map Visit.id := List.map_map
  constructor
  · intro h
    refine ⟨⟨?_, List.forall_mem_map.2 h.inside, ?_, fun a => ?_, ?_⟩, h.separate⟩
    · rw [hid]
      exact h.once
    · intro before v after hsplit
      obtain ⟨before, rest, rfl, rfl, hrest⟩ := List.map_eq_append_iff.1 hsplit
      obtain ⟨v, after, rfl, rfl, -⟩ := List.map_eq_cons_iff.1 hrest
      rw [producersOf_alone]
      exact h.producers before v after rfl
    · rw [lastWriter_alone, h.final]
    · rintro v hv w - ⟨a, ha, -⟩
      obtain ⟨u, -, rfl⟩ := List.mem_map.1 hv
      cases ha
  · rintro ⟨h, hseparate⟩
    refine ⟨?_, List.forall_mem_map.1 h.inside, ?_, fun a => ?_, hseparate⟩
    · rw [← hid]
      exact h.once
    · rintro before v after rfl
      rw [← producersOf_alone]
      exact h.producers _ v.alone (after.map Visit.alone) (by rw [List.map_append, List.map_cons])
    · rw [← lastWriter_alone, h.final]

theorem Faithful.move (h : Faithful p initial vs) {f : Activation → Activation} (hf : Function.Injective f) :
    Faithful p initial (vs.map (Visit.move f)) := by
  obtain ⟨halone, hseparate⟩ := faithful_iff_alone.1 h
  refine faithful_iff_alone.2 ⟨by rwa [List.map_map], ?_⟩
  rw [List.forall_mem_map]
  intro v hv
  rw [List.forall_mem_map]
  intro w hw hapart
  exact hseparate v hv w hw ((Visit.apart_move hf).1 hapart)

end Flow

namespace Dataflow

variable {p : Program} {d : Dataflow} {initial : List Visit}

theorem recordAll_failsOnly (concurrent : List Iteration) (as : List (Location × Bool)) (c : Conflicts) :
    FailsOnly Failure.IsConflict (Conflicts.recordAll p concurrent as c) := by
  induction as generalizing c with
  | nil => exact .ok _
  | cons a as ih => exact (record_failsOnly _ _ _ _ _ _).bind fun c _ => ih c

variable (hd : Records p initial initial d)
include hd

theorem checkVisit_failsOnly_conflicts {loops : Nat} {before : List Visit} {s : Progress} {v : Visit} {i : Instance}
    (hs : Follows p loops initial before s) (hv : i.visit = .ok v)
    (hflow : Agrees p initial (before.map Visit.alone ++ [v.alone])) :
    FailsOnly Failure.IsConflict (d.checkVisit p i s) := by
  obtain ⟨-, hknown, hnew, hin, hproducers, -⟩ := agrees_snoc.1 hflow
  rw [List.map_map] at hnew
  simp only [producersOf_alone] at hproducers
  rw [checkVisit_of_flow hd hs hv hknown hnew hin hproducers]
  exact (recordAll_failsOnly _ _ _).bind fun _ _ => .ok _

variable (hp : p.WellFormed) (hobeys : ∀ v ∈ initial, v.Obeys p) (hfew : initial.length ≤ 4294967295)
  {roots : List LoopNest.Node} {k : Kernel} (hk : Kernel.ofTree p roots = .ok k)
include hp hobeys hfew hk

theorem check_failsOnly_conflicts {vs : List Visit} (hv : k.visits = .ok vs)
    (hflow : Faithful p initial (vs.map Visit.alone)) : FailsOnly Failure.IsConflict (d.check p k) := by
  intro e hcheck
  have hinstances := instances_eq hd
  have hstart := follows_start p k.loops initial
  obtain ⟨t, ht, hvisits⟩ := bind_eq_ok.1 hv
  have hof : ∀ i ∈ t, i.statement.IsOf p := fun i hi => isOf_of_trace hk ht hi
  have hwalk := hcheck
  simp only [check, walk_of_trace _ ht, instances, hinstances] at hwalk
  rcases bind_eq_error.1 hwalk with hrun | ⟨s, hrun, -⟩
  · -- the visits before the one that is refused went on as on record
    refine visitAll_failsOnly _ (fun earlier i later s hsplit hearlier => ?_) e hrun
    rw [hsplit] at hvisits hof
    obtain ⟨before, rest, hbefore, hrest, rfl⟩ := Instance.traverses_visits.append_eq_ok.1 hvisits
    obtain ⟨v, after, hiv, -, rfl⟩ := Instance.visits_cons_eq_ok.1 hrest
    have hord : InOrder (([] ++ before).flatMap Visit.touches) := by
      have hall := inOrder_touches (orderedTrace_of_ofTree hk ht) (hsplit ▸ hvisits)
      rw [List.flatMap_append] at hall
      exact (List.pairwise_append.1 hall).1
    have hloops := loops_of_visits hk ht (hsplit ▸ hvisits)
    obtain ⟨-, hs⟩ := agrees_of_run hd hobeys hp hfew (fun j hj => hof j (List.mem_append_left _ hj)) hbefore hord
      (fun w hw => hloops w (List.mem_append_left _ hw)) (agrees_nil p initial) hstart hearlier
    have happ : (before ++ v :: after).map Visit.alone =
        before.map Visit.alone ++ [v.alone] ++ after.map Visit.alone := by simp
    rw [happ] at hflow
    exact checkVisit_failsOnly_conflicts hd hs hiv (agrees_of_faithful hflow).of_append
  · -- a walk that comes to its end has met no conflict, so it is faithful and accepted
    obtain ⟨hagrees, -⟩ := follows_of_trace hd hp hobeys hfew hk ht hvisits hstart hrun
    have hseparate := (Visit.quiet_touches_iff hagrees.inside).1 hagrees.quiet
    cases (check_of_visits hd hp hobeys hfew hk hv (faithful_iff_alone.2 ⟨hflow, hseparate⟩)).symm.trans hcheck

end Dataflow

end LoopNest
