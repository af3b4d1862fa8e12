/-!
The shortest decimal that reads back as a given binary float: of the decimals with the fewest digits inside
the interval that rounds to the float, the one nearest to it, and the larger of two equally near ones.
-/

namespace LoopNest.Decimal

/-- The magnitude `mantissa * 2 ^ exponent`; `halved` says that the next smaller float is half as far away as
the next larger one. -/
structure Binary where
  mantissa : Nat
  exponent : Int
  halved : Bool

def Binary.ofBits (bits : Nat) : Binary :=
  let fraction : Nat := bits % (1 <<< 52)
  let biased : Nat := (bits >>> 52) % (1 <<< 11)
  if biased = 0 then ⟨fraction, -1074, false⟩
  else ⟨(1 <<< 52) + fraction, (biased : Int) - 1075, fraction == 0 && biased > 1⟩

structure Scaled where
  significand : Nat
  exponent : Int

structure Interval where
  low : Nat
  value : Nat
  high : Nat
  unit : Nat
  closed : Bool

def Binary.interval (b : Binary) : Interval :=
  -- four times the magnitude, so that the middles of the gaps are whole; a negative exponent goes into the unit
  let up := 1 <<< (b.exponent - 2).toNat
  let unit := 1 <<< (2 - b.exponent).toNat
  let down := if b.halved then 1 else 2
  { low := (4 * b.mantissa - down) * up
    value := 4 * b.mantissa * up
    high := (4 * b.mantissa + 2) * up
    unit
    closed := b.mantissa % 2 = 0 }

def Interval.onGrid (i : Interval) (k : Int) : Interval :=
  let up := Nat.pow 10 (-k).toNat
  { i with low := i.low * up, value := i.value * up, high := i.high * up, unit := i.unit * Nat.pow 10 k.toNat }

def Interval.holds (i : Interval) (n : Nat) : Bool :=
  if i.closed then i.low ≤ n * i.unit && n * i.unit ≤ i.high
  else i.low < n * i.unit && n * i.unit < i.high

def Interval.nearest? (i : Interval) : Option Nat :=
  let below := i.value / i.unit
  let above := below + 1
  let fromBelow := i.value - below * i.unit
  let toAbove := above * i.unit - i.value
  match i.holds below, i.holds above with
  | false, false => none
  | true, false => some below
  | false, true => some above
  | true, true => some (if fromBelow < toAbove then below else above)

def searchGrid (i : Interval) : Nat → Int → Scaled
  | 0, k => let g := i.onGrid k; ⟨g.value / g.unit, k⟩
  | tries + 1, k =>
    match (i.onGrid k).nearest? with
    | some n => ⟨n, k⟩
    | none => searchGrid i tries (k - 1)

def leadingZeros (value unit : Nat) : Nat → Nat
  | 0 => 0
  | tries + 1 => if unit ≤ value then 0 else leadingZeros (value * 10) unit tries + 1

def Interval.magnitude (i : Interval) : Int :=
  if i.unit ≤ i.value then ((Nat.toDigits 10 (i.value / i.unit)).length : Int) - 1
  else -(leadingZeros i.value i.unit 400 : Int)

def dropZeros : Nat → Scaled → Scaled
  | 0, s => s
  | tries + 1, s =>
    if s.significand % 10 = 0 then dropZeros tries ⟨s.significand / 10, s.exponent + 1⟩ else s

def shortest (b : Binary) : Scaled :=
  if b.mantissa = 0 then ⟨0, 0⟩
  else
    -- seventeen digits always suffice, and no float has more than 400 trailing zeros
    let i := b.interval
    dropZeros 400 (searchGrid i 17 i.magnitude)

end LoopNest.Decimal
