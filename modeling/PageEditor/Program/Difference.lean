/-!
# Differences

The first line in which two texts differ.
-/
set_option autoImplicit false

namespace PageEditor

/-- A line that is not the same in two texts, counted from 1. -/
structure Difference where
  line : Nat
  expected : String
  found : String
  deriving DecidableEq, Repr

namespace Difference

/-- The lines of a text, also the one behind the last line feed. `line` comes last one first. -/
def linesFrom (line : List Char) : List Char → List String
  | [] => [String.ofList line.reverse]
  | '\n' :: cs => String.ofList line.reverse :: linesFrom [] cs
  | c :: cs => linesFrom (c :: line) cs

def firstFrom (line : Nat) : List String → List String → Option Difference
  | a :: as, b :: bs => if a = b then firstFrom (line + 1) as bs else some ⟨line, a, b⟩
  | a :: _, [] => some ⟨line, a, "<end of output>"⟩
  | [], b :: _ => some ⟨line, "<end of input>", b⟩
  | [], [] => none

/-- The first difference between two texts; none when they are equal. -/
def first? (expected found : String) : Option Difference :=
  firstFrom 1 (linesFrom [] expected.toList) (linesFrom [] found.toList)

end Difference

end PageEditor
