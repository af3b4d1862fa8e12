namespace LoopNest.Search

-- random numbers, by position
abbrev Draws : Type := Nat → Nat

def shuffleFrom {α : Type} (draws : Draws) : Nat → Nat → List α → List α
  | 0, _, xs => xs
  | count + 1, next, xs =>
    let i := draws next % xs.length
    match xs[i]? with
    | none => xs
    | some x => x :: shuffleFrom draws count (next + 1) (xs.eraseIdx i)

theorem perm_cons_eraseIdx {α : Type} {xs : List α} {i : Nat} {x : α} (h : xs[i]? = some x) :
    (x :: xs.eraseIdx i).Perm xs := by
  induction xs generalizing i with
  | nil => simp at h
  | cons y ys ih =>
    cases i with
    | zero =>
      simp only [List.getElem?_cons_zero, Option.some.injEq] at h
      subst h
      exact List.Perm.refl _
    | succ i =>
      simp only [List.getElem?_cons_succ] at h
      exact (List.Perm.swap y x _).trans ((ih h).cons y)

theorem shuffleFrom_perm {α : Type} (draws : Draws) (count next : Nat) (xs : List α) :
    (shuffleFrom draws count next xs).Perm xs := by
  induction count generalizing next xs with
  | zero => exact List.Perm.refl _
  | succ count ih =>
    simp only [shuffleFrom]
    split
    · exact List.Perm.refl _
    · next x h =>
      have rest := ih (next + 1) (xs.eraseIdx (draws next % xs.length))
      exact (rest.cons x).trans (perm_cons_eraseIdx h)

def shuffle {α : Type} (draws : Draws) (next : Nat) (xs : List α) : List α × Nat :=
  (shuffleFrom draws xs.length next xs, next + xs.length)

/-- The numbers when no others are given: a well-mixed one for every seed and position. -/
def seeded (seed : Nat) : Draws := fun i =>
  let x := (seed + (i + 1) * 0x9E3779B97F4A7C15) % (1 <<< 64)
  let x := ((x ^^^ (x >>> 30)) * 0xBF58476D1CE4E5B9) % (1 <<< 64)
  let x := ((x ^^^ (x >>> 27)) * 0x94D049BB133111EB) % (1 <<< 64)
  x ^^^ (x >>> 31)

end LoopNest.Search
