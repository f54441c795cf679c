/-!
# Lines

The lines of a text with their ends, as a reader of the text would count them. A carriage return and
a line feed behind it end one line.
-/
set_option autoImplicit false

namespace PageEditor.Text

/-- Whether a character ends a line. -/
def endsLine (c : Char) : Bool :=
  let n := c.toNat
  (0x0A ≤ n && n ≤ 0x0D) || n == 0x85 || n == 0x2028 || n == 0x2029

/-- A line, its end included, and how many characters come before it. -/
structure Line where
  start : Nat
  chars : List Char
  deriving DecidableEq, Repr

namespace Line

def stop (l : Line) : Nat := l.start + l.chars.length

def contains (l : Line) (offset : Nat) : Bool := l.start ≤ offset && offset < l.stop

end Line

/-- The lines of a text that stands behind `start` characters; `line` comes last one first. -/
def linesFrom (start : Nat) (line : List Char) : List Char → List Line
  | [] => if line.isEmpty then [] else [⟨start, line.reverse⟩]
  | '\r' :: '\n' :: cs =>
    ⟨start, ('\n' :: '\r' :: line).reverse⟩ :: linesFrom (start + line.length + 2) [] cs
  | c :: cs =>
    if endsLine c then ⟨start, (c :: line).reverse⟩ :: linesFrom (start + line.length + 1) [] cs
    else linesFrom start (c :: line) cs

/-- The lines of a text. The empty text has one line. -/
def lines (cs : List Char) : List Line := if cs.isEmpty then [⟨0, []⟩] else linesFrom 0 [] cs

end PageEditor.Text
