import PageEditor.Markup.Token

/-!
# Errors in markup

Why a text cannot be read: what was expected where, and what stood there. `ParseError.message` words
the cause and `ParseError.label` names it briefly beside the text.
-/
set_option autoImplicit false

namespace PageEditor

/-- What may stand at a place. -/
inductive Expectation
  | importClause | namespaceName | importedName | localName | packageName
  | keyword (word : String)
  | leftBrace | rightBrace | less | greater
  | tagName | attributeOrEnd | attributeValue | closingTagName
  | closeTag (tag : String)
  deriving DecidableEq, Repr

namespace Expectation

/-- A keyword is quoted only where something else stands in its place. -/
def text (atEnd : Bool) : Expectation → String
  | importClause => "import clause"
  | namespaceName => "namespace name"
  | importedName => "imported name or '\x7d'"
  | localName => "local name"
  | packageName => "package name"
  | keyword word => if atEnd then word else "'" ++ word ++ "'"
  | leftBrace => "'\x7b'"
  | rightBrace => "'\x7d'"
  | less => "'<'"
  | greater => "'>'"
  | tagName => "tag name"
  | attributeOrEnd => "attribute, '>' or '/>'"
  | attributeValue => "attribute value"
  | closingTagName => "closing tag name"
  | closeTag tag => "</" ++ tag ++ ">"

end Expectation

inductive ParseError
  | unexpectedToken (span : Span) (expected : Expectation) (found : Token)
  | unexpectedEnd (expected : Expectation)
  | mismatchedTag (span : Span) (expected found : String)
  | spreadAttribute (span : Span)
  | expectedElement (span : Span)
  | noToken (span : Span)
  deriving DecidableEq, Repr

namespace ParseError

/-- Where the error is; the end of the text has no span. -/
def span? : ParseError → Option Span
  | unexpectedToken s _ _ => some s
  | unexpectedEnd _ => none
  | mismatchedTag s _ _ => some s
  | spreadAttribute s => some s
  | expectedElement s => some s
  | noToken s => some s

def message : ParseError → String
  | unexpectedToken s expected found =>
    "Unexpected token at " ++ s.describe ++ ": expected " ++ expected.text false ++ ", found "
      ++ found.describe
  | unexpectedEnd expected => "Unexpected end of input: expected " ++ expected.text true
  | mismatchedTag s expected found =>
    "Mismatched closing tag at " ++ s.describe ++ ": expected </" ++ expected ++ ">, found </"
      ++ found ++ ">"
  | spreadAttribute s =>
    "Invalid syntax at " ++ s.describe ++ ": spread attributes are not supported"
  | expectedElement s => "Invalid syntax at " ++ s.describe ++ ": expected an element"
  | noToken s => "Lexer error at " ++ s.describe

def label : ParseError → String
  | unexpectedToken _ expected _ => "expected " ++ expected.text false
  | unexpectedEnd expected => "expected " ++ expected.text true
  | mismatchedTag _ expected _ => "expected </" ++ expected ++ ">"
  | spreadAttribute _ => "spread attributes are not supported"
  | expectedElement _ => "expected an element"
  | noToken _ => "unrecognized input"

end ParseError

/-! ## Reading tokens -/

/-- A token that was read. -/
structure Lexeme where
  token : Token
  span : Span
  next : Cursor
  deriving DecidableEq, Repr

namespace Cursor

/-- The next token, which must be there. -/
def next (c : Cursor) (expected : Expectation) : Except ParseError Lexeme :=
  match c.lex with
  | .token t s d => .ok ⟨t, s, d⟩
  | .invalid s _ => .error (.noToken s)
  | .finished => .error (.unexpectedEnd expected)

/-- The next token, if there is one. -/
def peek? (c : Cursor) : Option Lexeme :=
  match c.lex with
  | .token t s d => some ⟨t, s, d⟩
  | _ => none

/-- Moves behind the token `t` if it comes next. -/
def skip (c : Cursor) (t : Token) : Cursor :=
  match c.peek? with
  | some l => if l.token = t then l.next else c
  | none => c

/-- Reads the token `t`. -/
def expect (c : Cursor) (t : Token) (expected : Expectation) : Except ParseError Lexeme := do
  let l ← c.next expected
  if l.token = t then return l else throw (.unexpectedToken l.span expected l.token)

/-- Reads a name. -/
def ident (c : Cursor) (expected : Expectation) : Except ParseError (String × Cursor) := do
  let l ← c.next expected
  match l.token with
  | .ident name => return (name, l.next)
  | t => throw (.unexpectedToken l.span expected t)

/-- Reads a keyword. -/
def keyword (c : Cursor) (word : String) : Except ParseError Cursor := do
  let l ← c.expect (.ident word) (.keyword word)
  return l.next

theorem next_length_lt {c : Cursor} {e : Expectation} {l : Lexeme} (h : c.next e = .ok l) :
    l.next.rest.length < c.rest.length := by
  simp only [next] at h
  split at h
  · rename_i hl
    cases h
    exact lex_token_length_lt hl
  · cases h
  · cases h

theorem peek?_length_lt {c : Cursor} {l : Lexeme} (h : c.peek? = some l) :
    l.next.rest.length < c.rest.length := by
  simp only [peek?] at h
  split at h
  · rename_i hl
    cases h
    exact lex_token_length_lt hl
  · cases h

theorem skip_length_le (c : Cursor) (t : Token) : (c.skip t).rest.length ≤ c.rest.length := by
  simp only [skip]
  split
  · rename_i hl
    split
    · exact Nat.le_of_lt (peek?_length_lt hl)
    · exact Nat.le_refl _
  · exact Nat.le_refl _

theorem expect_length_lt {c : Cursor} {t : Token} {e : Expectation} {l : Lexeme}
    (h : c.expect t e = .ok l) : l.next.rest.length < c.rest.length := by
  simp only [expect, bind, Except.bind] at h
  split at h
  · cases h
  · rename_i l' hl
    split at h
    · cases h
      exact next_length_lt hl
    · cases h

theorem ident_length_lt {c : Cursor} {e : Expectation} {p : String × Cursor}
    (h : c.ident e = .ok p) : p.2.rest.length < c.rest.length := by
  simp only [ident, bind, Except.bind] at h
  split at h
  · cases h
  · rename_i l hl
    split at h
    · cases h
      exact next_length_lt hl
    · cases h

theorem keyword_length_lt {c d : Cursor} {w : String} (h : c.keyword w = .ok d) :
    d.rest.length < c.rest.length := by
  simp only [keyword, bind, Except.bind] at h
  split at h
  · cases h
  · rename_i l hl
    cases h
    exact expect_length_lt hl

end Cursor

end PageEditor
