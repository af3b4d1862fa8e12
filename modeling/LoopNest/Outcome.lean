namespace LoopNest

inductive Fault where
  | overflow
  | indexOutOfRange
  | durationOverflow
  | shapeMismatch
  | notAnOutput
  deriving DecidableEq

inductive Failure (ε : Type) where
  | fault (f : Fault)
  | refused (e : ε)
  deriving DecidableEq

abbrev Checked (α : Type) : Type := Except Fault α

abbrev Outcome (ε α : Type) : Type := Except (Failure ε) α

instance {ε : Type} : MonadLift (Except Fault) (Except (Failure ε)) where
  monadLift
    | .ok a => .ok a
    | .error f => .error (.fault f)

theorem bind_eq_ok {ε α β : Type} {x : Except ε α} {f : α → Except ε β} {b : β} :
    (x >>= f) = .ok b ↔ ∃ a, x = .ok a ∧ f a = .ok b := by
  cases x with
  | error e =>
    constructor
    · intro h
      cases h
    · rintro ⟨a, ha, _⟩
      cases ha
  | ok a =>
    constructor
    · exact fun h => ⟨a, rfl, h⟩
    · rintro ⟨a', ha, h⟩
      cases ha
      exact h

theorem pure_eq_ok {ε α : Type} {a b : α} : (pure a : Except ε α) = .ok b ↔ a = b :=
  ⟨fun h => by cases h; rfl, fun h => by rw [h]; rfl⟩

theorem bind₂_eq_ok {ε α β γ : Type} {x : Except ε α} {y : Except ε β} {f : α → β → γ} {c : γ} :
    (do let a ← x; let b ← y; return f a b) = .ok c ↔ ∃ a b, x = .ok a ∧ y = .ok b ∧ c = f a b := by
  simp only [bind_eq_ok, pure_eq_ok]
  constructor
  · rintro ⟨a, ha, b, hb, rfl⟩
    exact ⟨a, b, ha, hb, rfl⟩
  · rintro ⟨a, b, ha, hb, rfl⟩
    exact ⟨a, ha, b, hb, rfl⟩

@[simp] theorem lift_ok {ε α : Type} (a : α) : (liftM (.ok a : Checked α) : Outcome ε α) = .ok a := rfl

@[simp] theorem lift_error {ε α : Type} (f : Fault) :
    (liftM (.error f : Checked α) : Outcome ε α) = .error (.fault f) := rfl

theorem lift_eq_ok {ε α : Type} {x : Checked α} {a : α} :
    (liftM x : Outcome ε α) = .ok a ↔ x = .ok a := by
  cases x with
  | error f => simp
  | ok b => simp

theorem lift_eq_error {ε α : Type} {x : Checked α} {e : Failure ε} :
    (liftM x : Outcome ε α) = .error e ↔ ∃ f, x = .error f ∧ e = .fault f := by
  cases x with
  | error f => simp [eq_comm]
  | ok b => simp

theorem map_eq_ok {ε α β : Type} {x : Except ε α} {f : α → β} {b : β} :
    x.map f = .ok b ↔ ∃ a, x = .ok a ∧ f a = b := by
  cases x <;> simp [Except.map]

theorem bind_eq_error {ε α β : Type} {x : Except ε α} {f : α → Except ε β} {e : ε} :
    (x >>= f) = .error e ↔ x = .error e ∨ ∃ a, x = .ok a ∧ f a = .error e := by
  cases x with
  | error e' => simp [bind, Except.bind]
  | ok a => simp [bind, Except.bind]

theorem ok_bind {ε α β : Type} (a : α) (f : α → Except ε β) : ((.ok a : Except ε α) >>= f) = f a := rfl

def FailsOnly {ε α : Type} (P : ε → Prop) (x : Except ε α) : Prop := ∀ e, x = .error e → P e

abbrev FailsOnlyBy {ε α : Type} (e : ε) (x : Except ε α) : Prop := FailsOnly (· = e) x

namespace FailsOnly

variable {ε α β : Type} {P : ε → Prop}

theorem ok (a : α) : FailsOnly P (.ok a) := fun _ h => nomatch h

theorem error {e : ε} (he : P e) : FailsOnly P (.error e : Except ε α) := by
  intro e' h
  cases h
  exact he

theorem bind {x : Except ε α} {f : α → Except ε β} (hx : FailsOnly P x)
    (hf : ∀ a, x = .ok a → FailsOnly P (f a)) : FailsOnly P (x >>= f) := by
  intro e h
  rcases bind_eq_error.1 h with h | ⟨a, ha, h⟩
  · exact hx e h
  · exact hf a ha e h

theorem lift {P : Failure ε → Prop} {x : Checked α} (hx : FailsOnly (fun f => P (.fault f)) x) :
    FailsOnly P (liftM x : Outcome ε α) := by
  intro e h
  obtain ⟨f, hf, rfl⟩ := lift_eq_error.1 h
  exact hx f hf

end FailsOnly

theorem FailsOnlyBy.lift {ε α : Type} {f : Fault} {x : Checked α} (hx : FailsOnlyBy f x) :
    FailsOnlyBy (.fault f) (liftM x : Outcome ε α) := FailsOnly.lift fun g hg => congrArg _ (hx g hg)

namespace Outcome

variable {ε ε' α : Type}

def refuse (e : ε) : Outcome ε α := .error (.refused e)

def require (o : Option α) (e : ε) : Outcome ε α :=
  match o with
  | some a => .ok a
  | none => refuse e

def mapRefusal (f : ε → ε') : Outcome ε α → Outcome ε' α
  | .ok a => .ok a
  | .error (.fault x) => .error (.fault x)
  | .error (.refused e) => .error (.refused (f e))

def ofExcept : Except ε α → Outcome ε α
  | .ok a => .ok a
  | .error e => refuse e

@[simp] theorem require_some (a : α) (e : ε) : require (some a) e = .ok a := rfl

@[simp] theorem require_none (e : ε) : require (none : Option α) e = refuse e := rfl

theorem require_eq_ok {o : Option α} {e : ε} {a : α} : require o e = .ok a ↔ o = some a := by
  cases o with
  | none => simp [refuse]
  | some b => simp

@[simp] theorem mapRefusal_ok (f : ε → ε') (a : α) : mapRefusal f (.ok a) = .ok a := rfl

@[simp] theorem mapRefusal_refuse (f : ε → ε') (e : ε) :
    mapRefusal f (refuse e : Outcome ε α) = refuse (f e) := rfl

theorem mapRefusal_eq_refuse {f : ε → ε'} {x : Outcome ε α} {e : ε'} :
    mapRefusal f x = refuse e ↔ ∃ e', x = refuse e' ∧ e = f e' := by
  obtain (e | e) | b := x <;> simp [mapRefusal, refuse, eq_comm]

theorem mapRefusal_eq_ok {f : ε → ε'} {x : Outcome ε α} {a : α} :
    mapRefusal f x = .ok a ↔ x = .ok a := by
  obtain (e | e) | b := x <;> simp [mapRefusal]

end Outcome

end LoopNest
