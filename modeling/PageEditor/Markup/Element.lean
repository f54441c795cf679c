import PageEditor.Markup.Attribute
import PageEditor.Text.Blank

/-!
# Elements

Markup as it is written: runs of text, expressions in braces, and elements with their tags. An
element is read in one loop over the text with a stack of the elements that are still open, so every
step moves forward. The text between two tags counts without the blanks at its ends, and not at all
when nothing else is left.
-/
set_option autoImplicit false
set_option linter.unusedVariables false

namespace PageEditor

/-! ## Markup -/

inductive Markup
  | text (place : Place) (content : String)
  | expression (place : Place) (inner : String)
  | element (place : Place) (tag : String) (attributes : List Attribute) (children : List Markup)

def Markup.place : Markup → Place
  | text p _ => p
  | expression p _ => p
  | element p _ _ _ => p

/-! ## Open elements -/

/-- An element that is still open: where it starts, its open tag, where its content starts, and what
it holds so far, the last one first. -/
structure OpenElement where
  start : Cursor
  tag : OpenTag
  inner : Cursor
  held : List Markup

namespace OpenElement

def hold (e : OpenElement) (m : Markup) : OpenElement := { e with held := m :: e.held }

/-- The element, when its close tag runs from `stop` to `after`. -/
def close (e : OpenElement) (stop after : Cursor) : Markup :=
  .element ⟨e.start.span after, e.start.span e.inner, some (e.inner.span stop),
      String.ofList (e.start.upTo after)⟩
    e.tag.name e.tag.attributes e.held.reverse

end OpenElement

/-- Whether a character ends a run of text. -/
def endsText (c : Char) : Bool := c == '<' || c == '\x7b'

namespace Cursor

/-- The run of text from here to `stop`, if it is not blank. -/
def textRun? (c stop : Cursor) : Option Markup :=
  let raw := c.upTo stop
  let trimmed := Text.trim raw
  if trimmed.isEmpty then none
  else
    let start := c.offset + Text.byteLength (Text.leading raw)
    let content := String.ofList trimmed
    some (.text (.solid ⟨start, start + Text.byteLength trimmed⟩ content) content)

/-- The expression in braces from here to `stop`. -/
def expression (c stop : Cursor) : Markup :=
  let raw := c.upTo stop
  .expression (.solid (c.span stop) (String.ofList raw)) (String.ofList raw.tail.dropLast)

/-- An element that closes itself. -/
def closedElement (c : Cursor) (tag : OpenTag) (stop : Cursor) : Markup :=
  .element (.solid (c.span stop) (String.ofList (c.upTo stop))) tag.name tag.attributes []

/-- Moves to the end of a run of text. -/
def skipText (c : Cursor) : Cursor :=
  c.advance (c.rest.takeWhile fun x => !endsText x).length

theorem skipText_length_le (c : Cursor) : c.skipText.rest.length ≤ c.rest.length := by
  simp [skipText, advance]

/-- Reads what is left of the element `top`; `outer` are the open elements around it, innermost
first. -/
def content (outer : List OpenElement) (top : OpenElement) (c : Cursor) :
    Except ParseError (Markup × Cursor) :=
  let d := c.skipText
  let top := match c.textRun? d with
    | some m => top.hold m
    | none => top
  match d.rest with
  | [] => .error (.unexpectedEnd (.closeTag top.tag.name))
  | '<' :: '/' :: _ =>
    match h : d.closeTag top.tag.name with
    | .error e => .error e
    | .ok after =>
      let m := top.close d after
      match outer with
      | [] => .ok (m, after)
      | next :: outer => content outer (next.hold m) after
  | '<' :: _ =>
    match h : d.openTag with
    | .error e => .error e
    | .ok (tag, after) =>
      if tag.closed then content outer (top.hold (d.closedElement tag after)) after
      else content (top :: outer) ⟨d, tag, after, []⟩ after
  | _ =>
    match h : d.braced with
    | .error e => .error e
    | .ok after => content outer (top.hold (d.expression after)) after
termination_by c.rest.length
decreasing_by
  all_goals have hd := c.skipText_length_le
  · exact Nat.lt_of_lt_of_le (closeTag_length_lt h) hd
  · exact Nat.lt_of_lt_of_le (openTag_length_lt h) hd
  · exact Nat.lt_of_lt_of_le (openTag_length_lt h) hd
  · exact Nat.lt_of_lt_of_le (braced_length_lt h) hd

theorem content_length_lt {outer : List OpenElement} {top : OpenElement} {c : Cursor}
    {p : Markup × Cursor} (h : c.content outer top = .ok p) :
    p.2.rest.length < c.rest.length := by
  fun_induction content outer top c generalizing p with
  | case1 => cases h
  | case2 => cases h
  | case3 =>
    cases h
    rename_i hc _
    exact Nat.lt_of_lt_of_le (closeTag_length_lt hc) (skipText_length_le _)
  | case4 =>
    rename_i hc _ _ _ ih
    exact Nat.lt_trans (ih h) (Nat.lt_of_lt_of_le (closeTag_length_lt hc) (skipText_length_le _))
  | case5 => cases h
  | case6 =>
    rename_i hc _ ih
    exact Nat.lt_trans (ih h) (Nat.lt_of_lt_of_le (openTag_length_lt hc) (skipText_length_le _))
  | case7 =>
    rename_i hc _ ih
    exact Nat.lt_trans (ih h) (Nat.lt_of_lt_of_le (openTag_length_lt hc) (skipText_length_le _))
  | case8 => cases h
  | case9 =>
    rename_i hc _ _ _ ih
    exact Nat.lt_trans (ih h) (Nat.lt_of_lt_of_le (braced_length_lt hc) (skipText_length_le _))

/-- Reads the element that starts here. -/
def element (c : Cursor) : Except ParseError (Markup × Cursor) :=
  match c.openTag with
  | .error e => .error e
  | .ok (tag, after) =>
    if tag.closed then .ok (c.closedElement tag after, after)
    else after.content [] ⟨c, tag, after, []⟩

theorem element_length_lt {c : Cursor} {p : Markup × Cursor} (h : c.element = .ok p) :
    p.2.rest.length < c.rest.length := by
  simp only [element] at h
  split at h
  · cases h
  · rename_i tag after ht
    have h1 := openTag_length_lt ht
    split at h
    · cases h
      exact h1
    · exact Nat.lt_trans (content_length_lt h) h1

end Cursor

end PageEditor
