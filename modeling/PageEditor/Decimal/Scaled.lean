/-!
# Reading decimals

A decimal literal is a sign, digits before and after the point, and a power of ten. `Numeral.toFloat`
gathers its digits in a 64-bit significand, drops the ones that no longer fit, and scales the result
by powers of ten in double precision; `none` means that the number is too large.
`isNumeral` tells which texts are numbers at all, in the wider sense that admits `inf`, `nan`, a
leading plus and a bare point.
-/
set_option autoImplicit false

namespace PageEditor.Decimal

/-! ## Literals -/

/-- A decimal literal, its digits from the front; the power of ten has a sign of its own. -/
structure Numeral where
  negative : Bool
  whole : List Char
  fraction : Option (List Char)
  power : Option (Bool × List Char)
  deriving DecidableEq, Repr

def digitValue (c : Char) : Nat := c.toNat - '0'.toNat

/-- The number that a row of digits denotes. -/
def natOfDigits (ds : List Char) : Nat :=
  ds.foldl (fun n d => n * 10 + digitValue d) 0

/-! ## The significand -/

/-- The largest significand. -/
def significandLimit : Nat := (1 <<< 64) - 1

/-- Appends digits to a significand until one does not fit; returns how many did. -/
def gather (significand : Nat) : List Char → Nat × Nat
  | [] => (significand, 0)
  | d :: ds =>
    let next := significand * 10 + digitValue d
    if next ≤ significandLimit then
      let (n, used) := gather next ds
      (n, used + 1)
    else (significand, 0)

/-- Scales by powers of ten no larger than `10 ^ 308`; `none` when the number is too large. -/
def scale (x : Float) (e : Int) : Option Float :=
  if e.natAbs ≤ 308 then
    let ten := Float.ofScientific 1 false e.natAbs
    if 0 ≤ e then
      let y := x * ten
      if y.isInf then none else some y
    else some (x / ten)
  else if x == 0.0 then some x
  else if 0 ≤ e then none
  else scale (x / 1e308) (e + 308)
termination_by e.natAbs

/-- The largest power of ten that is told apart from larger ones. -/
def powerLimit : Nat := (1 <<< 31) - 1

namespace Numeral

/-- Whether there is neither a point nor a power of ten. -/
def isWhole (n : Numeral) : Bool := n.fraction.isNone && n.power.isNone

/-- The significand, and the power of ten it is to be scaled by. -/
def significand (n : Numeral) : Nat × Int :=
  let (front, used) := gather 0 n.whole
  let (all, more) := gather front (n.fraction.getD [])
  (all, (n.whole.length : Int) - used - more)

/-- The nearest double, up to the rounding of the scaling; `none` when it is too large. -/
def toFloat (n : Numeral) : Option Float := do
  let (s, e) := n.significand
  let x := s.toUInt64.toFloat
  let y ← match n.power with
    | none => scale x e
    | some (down, ds) =>
      let p := natOfDigits ds
      if p ≤ powerLimit then scale x (if down then e - p else e + p)
      else if s = 0 || down then some 0.0
      else none
  return if n.negative then -y else y

end Numeral

/-! ## What is a number -/

/-- Splits the digits off the front. -/
def spanDigits (cs : List Char) : List Char × List Char :=
  (cs.takeWhile Char.isDigit, cs.dropWhile Char.isDigit)

/-- The text behind a sign. -/
def dropSign : List Char → List Char
  | '+' :: cs => cs
  | '-' :: cs => cs
  | cs => cs

/-- Whether the text is a power of ten: nothing, or `e`, a sign and digits. -/
def isPower : List Char → Bool
  | [] => true
  | c :: cs =>
    (c == 'e' || c == 'E') && !(dropSign cs).isEmpty && (dropSign cs).all Char.isDigit

/-- Whether the text is digits with a point somewhere and a power of ten. -/
def isDecimal (cs : List Char) : Bool :=
  match spanDigits cs with
  | (whole, '.' :: r) =>
    let (fraction, r) := spanDigits r
    !(whole.isEmpty && fraction.isEmpty) && isPower r
  | (whole, r) => !whole.isEmpty && isPower r

/-- Whether a text is a number: a decimal, or the name of infinity or of no number in any case. -/
def isNumeral (cs : List Char) : Bool :=
  let body := dropSign cs
  let name := String.ofList (body.map Char.toLower)
  name == "inf" || name == "infinity" || name == "nan" || isDecimal body

end PageEditor.Decimal
