import PageEditor.Json.Basic
import PageEditor.OrderedMap

/-!
# Decoding JSON values

Helpers by which other types are read from values. Each decoder is told how many more levels of
nesting it may open (`room`), and some whether the value was first taken in as a whole (`whole`),
which admits a few more spellings. A record is an object, whose unknown members are skipped and
whose known members come once, or an array of its fields in order.
-/
set_option autoImplicit false

namespace PageEditor.Json

/-! ## Scalars -/

def string? : Json → Option String
  | string s => some s
  | _ => none

def bool? : Json → Option Bool
  | bool b => some b
  | _ => none

/-- A natural number below `limit`. -/
def natBelow? (limit : Nat) : Json → Option Nat
  | number (.integer n) => if 0 ≤ n ∧ n < limit then some n.toNat else none
  | _ => none

def uint32? (v : Json) : Option UInt32 := (v.natBelow? (1 <<< 32)).map UInt32.ofNat

def uint64? (v : Json) : Option UInt64 := (v.natBelow? (1 <<< 64)).map UInt64.ofNat

/-- A number as a double; integers are rounded. -/
def double? : Json → Option Float
  | number (.double x) => some x
  | number (.integer n) =>
    let x := n.natAbs.toUInt64.toFloat
    some (if n < 0 then -x else x)
  | _ => none

/-- A value that may be `null`. -/
def option? {α : Type} (f : Json → Option α) : Json → Option (Option α)
  | null => some none
  | v => (f v).map some

/-! ## Records -/

/-- The member of that name, if there is one; `none` when there are two. -/
def single? (members : List (String × Json)) (name : String) : Option (Option Json) :=
  match members.filter (·.1 == name) with
  | [] => some none
  | [m] => some (some m.2)
  | _ => none

/-- The fields of a record in the order of `names`. An array has at least so many of them. -/
def fields? (names : List String) (least : Nat := 0) : Json → Option (List (Option Json))
  | object members => names.mapM (single? members)
  | array items =>
    if least ≤ items.length ∧ items.length ≤ names.length then
      some (items.map some ++ List.replicate (names.length - items.length) none)
    else none
  | _ => none

/-- A field that must be there. -/
def required? {α : Type} (f : Json → Option α) : Option Json → Option α
  | some v => f v
  | none => none

/-- A field that has a default. -/
def optional? {α : Type} (default : α) (f : Json → Option α) : Option Json → Option α
  | some v => f v
  | none => some default

/-! ## Tagged records -/

/-- The name of a case that has fields. In a value that was taken in as a whole the number of the
case does as well. -/
def tag? (whole : Bool) (cases : List String) : Json → Option String
  | string s => some s
  | v => if whole then (v.natBelow? (1 <<< 64)).bind (cases[·]?) else none

/-- The case of a value and the record of its fields: the case is the member `name` of an object, or
the first item of an array. -/
def tagged? (whole : Bool) (name : String) (cases : List String) : Json → Option (String × Json)
  | object members => do
    let case ← required? (tag? whole cases) (← single? members name)
    return (case, object (members.filter (·.1 != name)))
  | array (case :: fields) => (tag? whole cases case).map (·, array fields)
  | _ => none

/-! ## Names, lists and maps -/

/-- The name of a case without fields: a string, or an object that maps it to nothing. -/
def caseName? (room : Nat) (whole : Bool) : Json → Option String
  | string s => some s
  | object [(k, null)] => if 0 < room then some k else none
  | object [(k, object [])] => if 0 < room ∧ whole then some k else none
  | _ => none

/-- A case without fields, within a value that was taken in as a whole. -/
def case? {α : Type} (f : String → Option α) (v : Json) : Option α :=
  (v.caseName? depthLimit true).bind f

/-- The items of an array, each decoded with one level less. -/
def list? {α : Type} (room : Nat) (f : Nat → Json → Option α) : Json → Option (List α)
  | array items => if 0 < room then items.mapM (f (room - 1)) else none
  | _ => none

/-- An object as an ordered map; a key that comes again keeps its place and takes the new value. -/
def map? {α : Type} (room : Nat) (f : Nat → Json → Option α) : Json → Option (OrderedMap α)
  | object members =>
    if 0 < room then
      (members.mapM fun m => (f (room - 1) m.2).map (m.1, ·)).map OrderedMap.ofList
    else none
  | _ => none

def stringMap? (room : Nat) : Json → Option (OrderedMap String) := map? room fun _ => string?

/-- An ordered map as an object. -/
def ofMap {α : Type} (f : α → Json) (m : OrderedMap α) : Json :=
  object (m.entries.map fun e => (e.1, f e.2))

def ofStringMap (m : OrderedMap String) : Json := ofMap string m

end PageEditor.Json
