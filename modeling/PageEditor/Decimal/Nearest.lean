import PageEditor.Decimal.Scaled

/-!
# Nearest doubles

The double that is nearest to a number in the wider sense of `isNumeral`.
-/
set_option autoImplicit false

namespace PageEditor.Decimal

/-- A power of ten with its sign, behind its letter. -/
def powerValue : List Char → Int
  | [] => 0
  | _ :: '-' :: ds => -(natOfDigits ds : Int)
  | _ :: cs => natOfDigits (dropSign cs)

/-- The double nearest to digits with a point and a power of ten. Powers far out of range are not
worked out. -/
def nearest (cs : List Char) : Float :=
  let (whole, r) := spanDigits cs
  let (fraction, r) := match r with
    | '.' :: r => spanDigits r
    | r => ([], r)
  let digits := whole ++ fraction
  let n := natOfDigits digits
  let e := powerValue r - fraction.length
  if n = 0 ∨ e + digits.length < -330 then 0.0
  else if 310 < e then 1.0 / 0.0
  else Float.ofScientific n (e < 0) e.natAbs

/-- The double that a text denotes, if it is a number. -/
def ofText? (s : String) : Option Float :=
  let cs := s.toList
  if isNumeral cs then
    let body := dropSign cs
    let x := match body.head?.map Char.toLower with
      | some 'i' => 1.0 / 0.0
      | some 'n' => 0.0 / 0.0
      | _ => nearest body
    some (if cs.head? = some '-' then -x else x)
  else none

end PageEditor.Decimal
