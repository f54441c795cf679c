/-!
# JSON values

A value as it is read from a text. Objects keep the order of their members, and a key may come
twice. `unreadable` stands for a piece that is well formed but denotes nothing here: a number that
is too large for a double, a string with half a surrogate pair, or an object with such a key. It
does no harm where it is skipped.
-/
set_option autoImplicit false

namespace PageEditor

/-- Numbers are integers of 64 bits, signed or unsigned, or doubles. -/
inductive Number
  | integer (n : Int)
  | double (x : Float)

inductive Json
  | null
  | bool (b : Bool)
  | number (n : Number)
  | string (s : String)
  | array (items : List Json)
  | object (members : List (String × Json))
  | unreadable

namespace Json

instance : Inhabited Json := ⟨null⟩

/-! ## Depth and soundness -/

mutual

/-- How many arrays and objects are nested at most. -/
def depth : Json → Nat
  | array items => 1 + itemsDepth items
  | object members => 1 + membersDepth members
  | _ => 0

def itemsDepth : List Json → Nat
  | [] => 0
  | v :: vs => max v.depth (itemsDepth vs)

def membersDepth : List (String × Json) → Nat
  | [] => 0
  | (_, v) :: ms => max v.depth (membersDepth ms)

end

mutual

/-- Whether every piece denotes something. -/
def isReadable : Json → Bool
  | array items => itemsReadable items
  | object members => membersReadable members
  | unreadable => false
  | _ => true

def itemsReadable : List Json → Bool
  | [] => true
  | v :: vs => v.isReadable && itemsReadable vs

def membersReadable : List (String × Json) → Bool
  | [] => true
  | (_, v) :: ms => v.isReadable && membersReadable ms

end

/-- The deepest nesting that is accepted. -/
def depthLimit : Nat := 127

/-- Whether a value is accepted as a whole, without looking at what it is for. -/
def isSound (v : Json) : Bool := v.isReadable && decide (v.depth ≤ depthLimit)

/-! ## Building -/

def ofNat (n : Nat) : Json := number (.integer n)

def ofOption {α : Type} (f : α → Json) : Option α → Json
  | none => null
  | some a => f a

/-- A member that is written only when there is a value. -/
def member? {α : Type} (key : String) (f : α → Json) : Option α → List (String × Json)
  | none => []
  | some a => [(key, f a)]

end Json

end PageEditor
