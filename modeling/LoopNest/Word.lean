import LoopNest.Outcome

namespace LoopNest.Word

def minValue : Int := -9223372036854775808

def maxValue : Int := 9223372036854775807

/-- The first test is one comparison of small numbers and settles all values but the least. -/
def fits (x : Int) : Bool := x.natAbs ≤ 9223372036854775807 || x == minValue

theorem fits_iff {x : Int} : fits x = true ↔ minValue ≤ x ∧ x ≤ maxValue := by
  simp only [fits, minValue, maxValue, Bool.or_eq_true, decide_eq_true_eq, beq_iff_eq]
  omega

def checked (x : Int) : Checked Int :=
  if fits x then .ok x else .error .overflow

def add (a b : Int) : Checked Int := checked (a + b)

def sub (a b : Int) : Checked Int := checked (a - b)

def mul (a b : Int) : Checked Int := checked (a * b)

def neg (a : Int) : Checked Int := checked (-a)

def abs (a : Int) : Checked Int := checked a.natAbs

theorem checked_eq_ok {x y : Int} : checked x = .ok y ↔ y = x ∧ fits x = true := by
  unfold checked
  by_cases h : fits x = true
  · simp only [h, if_true, Except.ok.injEq, and_true]
    exact eq_comm
  · simp [h]

theorem add_eq_ok {a b c : Int} : add a b = .ok c ↔ c = a + b ∧ fits (a + b) = true := checked_eq_ok

theorem sub_eq_ok {a b c : Int} : sub a b = .ok c ↔ c = a - b ∧ fits (a - b) = true := checked_eq_ok

theorem mul_eq_ok {a b c : Int} : mul a b = .ok c ↔ c = a * b ∧ fits (a * b) = true := checked_eq_ok

theorem checked_of_fits {x : Int} (h : fits x = true) : checked x = .ok x := by
  simp [checked, h]

end LoopNest.Word
