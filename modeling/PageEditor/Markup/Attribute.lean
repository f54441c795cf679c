import PageEditor.Markup.Error

/-!
# Open tags

An open tag has a name and attributes. The value of an attribute is a quoted string, an expression
in braces, or missing. `bracedSize` finds the end of an expression: it counts braces and skips what
stands between quotes.
-/
set_option autoImplicit false
set_option linter.unusedVariables false

namespace PageEditor

/-! ## Braces -/

/-- The quotes between which braces do not count. -/
def isQuote (c : Char) : Bool := c == '"' || c == '\'' || c == '\x60'

/-- Whether the reader of braces is outside quotes, between them, or behind a backslash there. -/
inductive BraceState
  | outside
  | quoted (quote : Char)
  | escaped (quote : Char)
  deriving DecidableEq, Repr

/-- The number of characters up to the brace that closes all of `depth` open ones. -/
def bracedSize (depth : Nat) : BraceState → List Char → Option Nat
  | _, [] => none
  | .escaped q, _ :: r => (bracedSize depth (.quoted q) r).map (· + 1)
  | .quoted q, c :: r =>
    if c = '\\' then (bracedSize depth (.escaped q) r).map (· + 1)
    else if c = q then (bracedSize depth .outside r).map (· + 1)
    else (bracedSize depth (.quoted q) r).map (· + 1)
  | .outside, c :: r =>
    if isQuote c then (bracedSize depth (.quoted c) r).map (· + 1)
    else if c = '\x7b' then (bracedSize (depth + 1) .outside r).map (· + 1)
    else if c = '\x7d' then
      if depth ≤ 1 then some 1 else (bracedSize (depth - 1) .outside r).map (· + 1)
    else (bracedSize depth .outside r).map (· + 1)

theorem bracedSize_pos {depth : Nat} {state : BraceState} {cs : List Char} {n : Nat}
    (h : bracedSize depth state cs = some n) : 0 < n := by
  cases cs with
  | nil => cases state <;> simp [bracedSize] at h
  | cons c r => cases state <;> simp only [bracedSize] at h <;> grind [Option.map_eq_some_iff]

namespace Cursor

/-- Moves behind the expression in braces that starts here. -/
def braced (c : Cursor) : Except ParseError Cursor :=
  match bracedSize 0 .outside c.rest with
  | some n => .ok (c.advance n)
  | none => .error (.unexpectedEnd .rightBrace)

theorem braced_length_le {c d : Cursor} (h : c.braced = .ok d) :
    d.rest.length ≤ c.rest.length := by
  simp only [braced] at h
  split at h
  · cases h
    simp [advance]
  · cases h

theorem braced_length_lt {c d : Cursor} (h : c.braced = .ok d) :
    d.rest.length < c.rest.length := by
  simp only [braced] at h
  split at h
  · rename_i n hn
    cases h
    have hp := bracedSize_pos hn
    have hc : 0 < c.rest.length := by
      cases hr : c.rest with
      | nil => simp [hr, bracedSize] at hn
      | cons a r => simp
    simp only [advance, List.length_drop]
    omega
  · cases h

end Cursor

/-! ## Attributes -/

inductive AttributeValue
  | literal (body : String)
  | expression (raw : String)
  | flag
  deriving DecidableEq, Repr

structure Attribute where
  name : String
  value : AttributeValue
  deriving DecidableEq, Repr

namespace Cursor

/-- Reads the value behind an equals sign. -/
def attributeValue (c : Cursor) : Except ParseError (AttributeValue × Cursor) :=
  match c.peek? with
  | none => .error (.unexpectedEnd .attributeValue)
  | some l =>
    match l.token with
    | .string _ body => .ok (.literal body, l.next)
    | .leftBrace => do
      let d ← c.skipSpace.braced
      return (.expression (String.ofList (c.skipSpace.upTo d)), d)
    | t => .error (.unexpectedToken l.span .attributeValue t)

theorem attributeValue_length_le {c : Cursor} {p : AttributeValue × Cursor}
    (h : c.attributeValue = .ok p) : p.2.rest.length ≤ c.rest.length := by
  simp only [attributeValue] at h
  split at h
  · cases h
  · rename_i l hl
    split at h
    · cases h
      exact Nat.le_of_lt (peek?_length_lt hl)
    · simp only [bind, Except.bind] at h
      split at h
      · cases h
      · rename_i d hd
        cases h
        exact Nat.le_trans (braced_length_le hd) c.skipSpace_length_le
    · cases h

/-- Reads the value of an attribute whose name was just read. -/
def valueAfterName (c : Cursor) : Except ParseError (AttributeValue × Cursor) :=
  match c.peek? with
  | some l => if l.token = .equals then l.next.attributeValue else .ok (.flag, c)
  | none => .ok (.flag, c)

theorem valueAfterName_length_le {c : Cursor} {p : AttributeValue × Cursor}
    (h : c.valueAfterName = .ok p) : p.2.rest.length ≤ c.rest.length := by
  simp only [valueAfterName] at h
  split at h
  · rename_i l hl
    split at h
    · exact Nat.le_trans (attributeValue_length_le h) (Nat.le_of_lt (peek?_length_lt hl))
    · cases h
      exact Nat.le_refl _
  · cases h
    exact Nat.le_refl _

/-- Reads attributes up to the end of the tag; tells whether the tag closes itself. -/
def attributes (c : Cursor) : Except ParseError (List Attribute × Bool × Cursor) :=
  match h : c.next .attributeOrEnd with
  | .error e => .error e
  | .ok l =>
    match l.token with
    | .greater => .ok ([], false, l.next)
    | .selfClose => .ok ([], true, l.next)
    | .ident name =>
      match h' : l.next.valueAfterName with
      | .error e => .error e
      | .ok (value, d) =>
        match d.attributes with
        | .error e => .error e
        | .ok (more, closed, d) => .ok (⟨name, value⟩ :: more, closed, d)
    | .leftBrace => .error (.spreadAttribute l.span)
    | t => .error (.unexpectedToken l.span .attributeOrEnd t)
termination_by c.rest.length
decreasing_by
  exact Nat.lt_of_le_of_lt (valueAfterName_length_le h') (next_length_lt h)

theorem attributes_length_lt {c : Cursor} {p : List Attribute × Bool × Cursor}
    (h : c.attributes = .ok p) : p.2.2.rest.length < c.rest.length := by
  fun_induction attributes c generalizing p with
  | case1 => cases h
  | case2 c l hl ht => cases h; exact next_length_lt hl
  | case3 c l hl ht => cases h; exact next_length_lt hl
  | case4 => cases h
  | case5 => cases h
  | case6 c l hl name ht value d hv more closed d' hd ih =>
    have hm := ih hd
    cases h
    exact Nat.lt_trans hm (Nat.lt_of_le_of_lt (valueAfterName_length_le hv) (next_length_lt hl))
  | case7 => cases h
  | case8 => cases h

end Cursor

/-! ## Tags -/

/-- A tag that opens an element; one that closes itself leaves nothing open. -/
structure OpenTag where
  name : String
  attributes : List Attribute
  closed : Bool
  deriving DecidableEq, Repr

namespace Cursor

/-- Reads an open tag. -/
def openTag (c : Cursor) : Except ParseError (OpenTag × Cursor) :=
  match c.expect .less .less with
  | .error e => .error e
  | .ok l =>
    match l.next.ident .tagName with
    | .error e => .error e
    | .ok (name, d) =>
      match d.attributes with
      | .error e => .error e
      | .ok (attributes, closed, d) => .ok (⟨name, attributes, closed⟩, d)

theorem openTag_length_lt {c : Cursor} {p : OpenTag × Cursor} (h : c.openTag = .ok p) :
    p.2.rest.length < c.rest.length := by
  simp only [openTag] at h
  split at h
  · cases h
  · rename_i l hl
    split at h
    · cases h
    · rename_i name d hd
      split at h
      · cases h
      · rename_i attributes closed d' ha
        cases h
        exact Nat.lt_trans (attributes_length_lt ha)
          (Nat.lt_trans (ident_length_lt hd) (expect_length_lt hl))

/-- Reads the tag that closes the element `tag`. -/
def closeTag (c : Cursor) (tag : String) : Except ParseError Cursor := do
  let l ← c.expect .closeTagOpen .less
  let name ← l.next.next .closingTagName
  match name.token with
  | .ident found =>
    if found = tag then
      let l ← name.next.expect .greater .greater
      return l.next
    else throw (.mismatchedTag name.span tag found)
  | t => throw (.unexpectedToken name.span .closingTagName t)

theorem closeTag_length_lt {c d : Cursor} {tag : String} (h : c.closeTag tag = .ok d) :
    d.rest.length < c.rest.length := by
  simp only [closeTag, bind, Except.bind] at h
  split at h
  · cases h
  · rename_i l hl
    split at h
    · cases h
    · rename_i n hn
      split at h
      · split at h
        · split at h
          · cases h
          · rename_i l' hl'
            cases h
            exact Nat.lt_trans (expect_length_lt hl')
              (Nat.lt_trans (next_length_lt hn) (expect_length_lt hl))
        · cases h
      · cases h

end Cursor

end PageEditor
