/-!
# Shortest decimals

The decimal digits by which a double-precision number is written: as few as possible such that no
other number of that format is nearer to the decimal, and of those the ones nearest to the number.

A positive number is `significand * 2 ^ exponent`. The reals that round to it form an interval
around it, whose ends belong to it when the significand is even. `shortest` tries grids of one,
two, … seventeen digits; on each it looks at the two neighbours of the number.
-/
set_option autoImplicit false

namespace PageEditor.Decimal

/-! ## Binary numbers -/

/-- A positive number `significand * 2 ^ exponent`; `isLowest` tells that the gap below it is half
the gap above it. -/
structure Binary where
  significand : Nat
  exponent : Int
  isLowest : Bool
  deriving DecidableEq, Repr

/-- Reads the magnitude of a finite number from its bits. -/
def Binary.ofBits (bits : UInt64) : Binary :=
  let fraction : Nat := bits.toNat % (1 <<< 52)
  let biased : Nat := (bits.toNat >>> 52) % (1 <<< 11)
  if biased = 0 then ⟨fraction, -1074, false⟩
  else ⟨(1 <<< 52) + fraction, (biased : Int) - 1075, fraction = 0 && 1 < biased⟩

/-! ## Fractions on a decimal grid -/

/-- The quotient of two naturals, the second one positive. -/
structure Ratio where
  num : Nat
  den : Nat
  deriving DecidableEq, Repr

/-- `n * 2 ^ e`. -/
def Ratio.ofBinary (n : Nat) (e : Int) : Ratio :=
  if 0 ≤ e then ⟨n <<< e.toNat, 1⟩ else ⟨n, 1 <<< (-e).toNat⟩

/-- The same quotient in units of `10 ^ e`. -/
def Ratio.inUnits (r : Ratio) (e : Int) : Ratio :=
  if 0 ≤ e then ⟨r.num, r.den * Nat.pow 10 e.toNat⟩ else ⟨r.num * Nat.pow 10 (-e).toNat, r.den⟩

/-- The first `k` from `start` on with `r < 10 ^ k`. -/
def magnitude (r : Ratio) (start : Int) : Nat → Int
  | 0 => start
  | fuel + 1 =>
    let u := r.inUnits start
    if u.num < u.den then start else magnitude r (start + 1) fuel

/-- A decimal `digits * 10 ^ exponent`. -/
structure Digits where
  digits : Nat
  exponent : Int
  deriving DecidableEq, Repr

/-! ## The search -/

/-- The best point of the grid `10 ^ e` in the rounding interval of `b`, if there is one. The ends
of the interval are halfway to the neighbours, so quarters of a unit make them whole. -/
def onGrid (b : Binary) (e : Int) : Option Digits :=
  let unit := fun n => (Ratio.ofBinary n (b.exponent - 2)).inUnits e
  let value := unit (4 * b.significand)
  let low := unit (4 * b.significand - if b.isLowest then 1 else 2)
  let high := unit (4 * b.significand + 2)
  let below := value.num / value.den
  let above := below + 1
  let even := b.significand % 2 == 0
  let belowIn := decide (0 < below) &&
    (if even then decide (low.num ≤ below * low.den) else decide (low.num < below * low.den))
  let aboveIn :=
    if even then decide (above * high.den ≤ high.num) else decide (above * high.den < high.num)
  let twice := 2 * (value.num % value.den)
  if belowIn && aboveIn then
    if twice < value.den ∨ (twice = value.den ∧ below % 2 = 0) then some ⟨below, e⟩
    else some ⟨above, e⟩
  else if belowIn then some ⟨below, e⟩
  else if aboveIn then some ⟨above, e⟩
  else none

/-- The first grid with a hit, from `count` digits on. -/
def search (b : Binary) (size : Int) (count : Nat) : Nat → Digits
  | 0 => ⟨0, 0⟩
  | fuel + 1 =>
    match onGrid b (size - count) with
    | some d => d
    | none => search b size (count + 1) fuel

/-- The shortest decimal that reads back as `b`, which is positive. The one-digit grid can answer
with ten of its units, which is one unit of the next. -/
def shortest (b : Binary) : Digits :=
  let estimate : Int := ((Nat.log2 b.significand : Int) + b.exponent) * 30103 / 100000 - 1
  let d := search b (magnitude (Ratio.ofBinary b.significand b.exponent) estimate 8) 1 17
  if d.digits = 10 then ⟨1, d.exponent + 1⟩ else d

end PageEditor.Decimal
