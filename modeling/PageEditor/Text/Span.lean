/-!
# Places in a text

Offsets count the bytes of the UTF-8 form. A span is a half-open range of offsets, a place is a span
with its parts, and a cursor is an offset together with the text that is still to be read. `slice`
cuts a span out of a text and refuses a span that leaves the text or splits a character.
-/
set_option autoImplicit false

namespace PageEditor

/-- The bytes from `start` up to, not including, `stop`. -/
structure Span where
  start : Nat
  stop : Nat
  deriving DecidableEq, Repr

namespace Span

def size (s : Span) : Nat := s.stop - s.start

def isEmpty (s : Span) : Bool := s.start == s.stop

/-- The same range counted from the start of `outer`; `none` when it begins before `outer`. -/
def relativeTo? (s outer : Span) : Option Span :=
  if outer.start ≤ s.start then some ⟨s.start - outer.start, s.stop - outer.start⟩ else none

/-- How a span is written in messages. -/
def describe (s : Span) : String :=
  "Span \x7b start: " ++ toString s.start ++ ", end: " ++ toString s.stop ++ " \x7d"

end Span

/-- Where a piece of markup stands in its text: an element with content has it between its open
tag and its close tag, every other piece is its own open tag. -/
structure Place where
  span : Span
  openTag : Span
  content : Option Span
  fragment : String
  deriving DecidableEq, Repr

/-- The place of a piece without content. -/
def Place.solid (span : Span) (fragment : String) : Place := ⟨span, span, none, fragment⟩

/-! ## Bytes -/

namespace Text

/-- The number of bytes of a text. -/
def byteLength : List Char → Nat
  | [] => 0
  | c :: cs => c.utf8Size + byteLength cs

/-- Cuts a text after `n` bytes; `none` when it is shorter or a character straddles the cut. -/
def splitBytes (n : Nat) : List Char → Option (List Char × List Char)
  | [] => if n = 0 then some ([], []) else none
  | c :: cs =>
    if n = 0 then some ([], c :: cs)
    else if c.utf8Size ≤ n then
      (splitBytes (n - c.utf8Size) cs).map fun (front, back) => (c :: front, back)
    else none

/-- The part of a text that a span covers. -/
def slice (cs : List Char) (s : Span) : Option (List Char) :=
  if s.start ≤ s.stop then do
    let (_, back) ← splitBytes s.start cs
    let (front, _) ← splitBytes s.size back
    return front
  else none

theorem byteLength_append (a b : List Char) :
    byteLength (a ++ b) = byteLength a + byteLength b := by
  induction a with
  | nil => simp [byteLength]
  | cons c a ih => simp [byteLength, ih, Nat.add_assoc]

theorem splitBytes_byteLength (a b : List Char) :
    splitBytes (byteLength a) (a ++ b) = some (a, b) := by
  induction a with
  | nil => cases b <;> simp [byteLength, splitBytes]
  | cons c a ih =>
    have hc : 0 < c.utf8Size := c.utf8Size_pos
    have h0 : ¬ c.utf8Size + byteLength a = 0 := by omega
    have hle : c.utf8Size ≤ c.utf8Size + byteLength a := by omega
    have hsub : c.utf8Size + byteLength a - c.utf8Size = byteLength a := by omega
    simp only [byteLength, List.cons_append, splitBytes, if_neg h0, if_pos hle, hsub, ih,
      Option.map_some]

end Text

/-! ## Cursors -/

/-- A reading position: the text from `offset` on is `rest`. -/
structure Cursor where
  offset : Nat
  rest : List Char
  deriving DecidableEq, Repr

namespace Cursor

def ofText (cs : List Char) : Cursor := ⟨0, cs⟩

/-- Moves past `n` characters. -/
def advance (c : Cursor) (n : Nat) : Cursor :=
  ⟨c.offset + Text.byteLength (c.rest.take n), c.rest.drop n⟩

/-- The text between two positions, the second one reached from the first. -/
def upTo (c d : Cursor) : List Char :=
  c.rest.take (c.rest.length - d.rest.length)

/-- The range between two positions. -/
def span (c d : Cursor) : Span := ⟨c.offset, d.offset⟩

theorem advance_length (c : Cursor) (n : Nat) :
    (c.advance n).rest.length = c.rest.length - n := List.length_drop

theorem advance_rest (c : Cursor) (n : Nat) : (c.advance n).rest = c.rest.drop n := rfl

theorem upTo_advance (c : Cursor) (n : Nat) (h : n ≤ c.rest.length) :
    c.upTo (c.advance n) = c.rest.take n := by
  simp only [upTo, advance, List.length_drop]
  congr 1
  omega

end Cursor

end PageEditor
