import LoopNest.Program.Basic
import LoopNest.Proofs.Kernel.Trace
import LoopNest.Proofs.Lists
import Mathlib.Data.List.Induction

/-!
What it means that one walk has the flow of data of another. A visit is an instance with its arithmetic
done: the point it runs at and the cells it accesses. The definitions below speak of all visits and all
pairs of visits of a walk; what a checker keeps in order to decide them is not in sight.
-/

namespace LoopNest

abbrev Location : Type := Nat × Option Nat

abbrev InstanceId : Type := Nat × List Int

structure Visit where
  id : InstanceId
  reads : List Location
  store : Location
  concurrent : List Iteration

def Place.location (p : Place) (env : Env) : Checked Location := do
  let offset ← p.offset env
  return (p.buffer, offset)

def Place.locations (env : Env) : List Place → Checked (List Location)
  | [] => .ok []
  | p :: ps => do
    let a ← p.location env
    let as ← locations env ps
    return a :: as

def Instance.visit (i : Instance) : Checked Visit := do
  let point ← i.point
  let reads ← Place.locations i.env i.statement.reads
  let store ← i.statement.store.location i.env
  return ⟨(i.statement.computation, point), reads, store, i.concurrent⟩

def Instance.visits : List Instance → Checked (List Visit)
  | [] => .ok []
  | i :: is => do
    let v ← i.visit
    let vs ← visits is
    return v :: vs

def Kernel.visits (k : Kernel) : Checked (List Visit) := do
  let t ← k.trace
  Instance.visits t

namespace Visit

def locations (v : Visit) : List Location := v.store :: v.reads

/-- In different iterations of one activation of a concurrent loop. -/
def Apart (v w : Visit) : Prop :=
  ∃ a ∈ v.concurrent, ∃ b ∈ w.concurrent,
    a.loop = b.loop ∧ a.around = b.around ∧ a.value ≠ b.value

def Clashes (v w : Visit) : Prop := v.store ∈ w.locations ∨ w.store ∈ v.locations

end Visit

namespace Flow

def lastWriter (vs : List Visit) (a : Location) : Option InstanceId :=
  vs.foldl (fun last v => if v.store = a then some v.id else last) none

def producersOf (before : List Visit) (v : Visit) : List (Option InstanceId) :=
  v.reads.map (lastWriter before)

def Inside (p : Program) (a : Location) : Prop :=
  ∃ b offset, p.buffers[a.1]? = some b ∧ a.2 = some offset ∧ offset < b.volume

/-- The walk `vs` has the flow of data of the walk `initial`. -/
structure Faithful (p : Program) (initial vs : List Visit) : Prop where
  once : ∀ x, (vs.map Visit.id).count x = if x ∈ initial.map Visit.id then 1 else 0
  inside : ∀ v ∈ vs, ∀ a ∈ v.locations, Inside p a
  producers : ∀ before v after, vs = before ++ v :: after →
    ∀ before' v' after', initial = before' ++ v' :: after' → v.id = v'.id →
      producersOf before v = producersOf before' v'
  final : ∀ a, lastWriter vs a = lastWriter initial a
  separate : ∀ v ∈ vs, ∀ w ∈ vs, v.Apart w → ¬ v.Clashes w

@[simp] theorem lastWriter_nil (a : Location) : lastWriter [] a = none := rfl

theorem lastWriter_snoc (vs : List Visit) (v : Visit) (a : Location) :
    lastWriter (vs ++ [v]) a = if v.store = a then some v.id else lastWriter vs a := by
  simp [lastWriter]

theorem exists_of_lastWriter_eq_some {vs : List Visit} {a : Location} {x : InstanceId}
    (h : lastWriter vs a = some x) :
    ∃ before v after, vs = before ++ v :: after ∧ v.id = x ∧ v.store = a ∧ ∀ w ∈ after, w.store ≠ a := by
  induction vs using List.reverseRecOn with
  | nil => cases h
  | append_singleton vs v ih =>
    rw [lastWriter_snoc] at h
    split at h
    · next hs =>
      cases h
      exact ⟨vs, v, [], rfl, rfl, hs, by simp⟩
    · next hs =>
      obtain ⟨before, w, after, rfl, hx, hw, hlast⟩ := ih h
      refine ⟨before, w, after ++ [v], by simp, hx, hw, ?_⟩
      intro u hu
      rcases List.mem_append.1 hu with hu | hu
      · exact hlast u hu
      · rw [List.mem_singleton.1 hu]
        exact hs

theorem lastWriter_eq_none {vs : List Visit} {a : Location} :
    lastWriter vs a = none ↔ ∀ v ∈ vs, v.store ≠ a := by
  induction vs using List.reverseRecOn with
  | nil => simp
  | append_singleton vs v ih =>
    rw [lastWriter_snoc]
    by_cases hs : v.store = a
    · simp [hs]
    · rw [if_neg hs, ih]
      simp [or_imp, forall_and, hs]

theorem lastWriter_mem {vs : List Visit} {a : Location} {x : InstanceId}
    (h : lastWriter vs a = some x) : x ∈ vs.map Visit.id := by
  obtain ⟨before, v, after, rfl, rfl, -, -⟩ := exists_of_lastWriter_eq_some h
  simp

end Flow

namespace Instance

theorem visits_cons_eq_ok {i : Instance} {is : List Instance} {vs : List Visit} :
    visits (i :: is) = .ok vs ↔ ∃ v rest, i.visit = .ok v ∧ visits is = .ok rest ∧ vs = v :: rest := by
  rw [visits]
  exact bind₂_eq_ok

theorem traverses_visits : Traverses visit visits := ⟨rfl, fun _ _ => rfl⟩

theorem visit_eq_ok {i : Instance} {v : Visit} :
    i.visit = .ok v ↔ ∃ point reads store, i.point = .ok point ∧
      Place.locations i.env i.statement.reads = .ok reads ∧
      i.statement.store.location i.env = .ok store ∧
      v = ⟨(i.statement.computation, point), reads, store, i.concurrent⟩ := by
  simp only [visit, bind_eq_ok, pure_eq_ok]
  constructor
  · rintro ⟨point, hp, reads, hr, store, hs, rfl⟩
    exact ⟨point, reads, store, hp, hr, hs, rfl⟩
  · rintro ⟨point, reads, store, hp, hr, hs, rfl⟩
    exact ⟨point, hp, reads, hr, store, hs, rfl⟩

theorem concurrent_of_visits {t : List Instance} {vs : List Visit} (h : visits t = .ok vs) :
    vs.map Visit.concurrent = t.map Instance.concurrent := by
  refine traverses_visits.map_eq ?_ h
  intro i v hv
  obtain ⟨_, _, _, _, _, _, rfl⟩ := visit_eq_ok.1 hv
  rfl

end Instance

theorem Place.location_eq_ok {p : Place} {env : Env} {a : Location} :
    p.location env = .ok a ↔ ∃ o, p.offset env = .ok o ∧ a = (p.buffer, o) := by
  simp only [location, bind_eq_ok, pure_eq_ok]
  exact exists_congr fun o => and_congr_right fun _ => eq_comm

theorem Place.exists_offset {p : Place} {env : Env} {a : Location} (h : p.location env = .ok a) (ha : a.2.isSome) :
    ∃ n, a = (p.buffer, some n) := by
  obtain ⟨n, hn⟩ := Option.isSome_iff_exists.1 ha
  obtain ⟨o, -, rfl⟩ := location_eq_ok.1 h
  exact ⟨n, congrArg (Prod.mk p.buffer) hn⟩

theorem Place.traverses_locations (env : Env) : Traverses (fun p => Place.location p env) (Place.locations env) :=
  ⟨rfl, fun _ _ => rfl⟩

theorem Place.location_eq_some {ε : Type} {p : Place} {env : Env} {n : Nat} {f : Option Nat → Outcome ε Nat}
    (hsome : ∀ m, f (some m) = .ok m) (hnone : f none ≠ .ok n) :
    (liftM (p.offset env) >>= f) = .ok n ↔ p.location env = .ok (p.buffer, some n) := by
  simp only [bind_eq_ok, lift_eq_ok, location_eq_ok, Prod.mk.injEq, true_and]
  constructor
  · rintro ⟨o, ho, h⟩
    cases o with
    | none => exact absurd h hnone
    | some m =>
      cases (hsome m).symm.trans h
      exact ⟨some n, ho, rfl⟩
  · rintro ⟨o, ho, rfl⟩
    exact ⟨some n, ho, hsome n⟩

end LoopNest
