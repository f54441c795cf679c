import PageEditor.Text.Span

/-!
# Tokens

The words of tags, style objects and import statements. The text between tags has no tokens. A
token is the longest one that the text starts with, behind blanks. What starts no token is skipped
in one piece: a stray character, or a string as far as it can be followed.
-/
set_option autoImplicit false
set_option linter.unusedVariables false

namespace PageEditor

/-! ## Tokens -/

inductive Quote
  | single | double
  deriving DecidableEq, Repr

def Quote.char : Quote → Char
  | single => '\''
  | double => '"'

inductive Token
  | closeTagOpen | less | selfClose | greater
  | equals | leftBrace | rightBrace | colon | comma | semicolon | star
  | ident (name : String)
  | string (quote : Quote) (body : String)
  | number (digits : String)
  deriving DecidableEq, Repr

namespace Token

/-- The characters of a token. -/
def chars : Token → List Char
  | closeTagOpen => ['<', '/']
  | less => ['<']
  | selfClose => ['/', '>']
  | greater => ['>']
  | equals => ['=']
  | leftBrace => ['\x7b']
  | rightBrace => ['\x7d']
  | colon => [':']
  | comma => [',']
  | semicolon => [';']
  | star => ['*']
  | ident name => name.toList
  | string quote body => quote.char :: body.toList ++ [quote.char]
  | number digits => digits.toList

/-- How a token is named in messages. -/
def describe : Token → String
  | ident name => "identifier '" ++ name ++ "'"
  | string quote body => "string " ++ String.ofList (string quote body).chars
  | number digits => "number " ++ digits
  | t => "'" ++ String.ofList t.chars ++ "'"

/-! ## Scanning -/

/-- The blanks between tokens. -/
def isSpace (c : Char) : Bool := c == ' ' || c == '\t' || c == '\r' || c == '\n'

def isIdentStart (c : Char) : Bool := c.isAlpha || c == '_' || c == '$'

def isIdentRest (c : Char) : Bool := isIdentStart c || c.isDigit || c == '.' || c == '-'

/-- Reads behind an opening quote: the body if the string is closed, and how many characters were
followed. A backslash takes the next character with it, which may not be a line feed. -/
def stringBody (quote : Char) : List Char → Option (List Char) × Nat
  | [] => (none, 0)
  | ['\\'] => (none, 0)
  | '\\' :: c :: r =>
    if c = '\n' then (none, 0)
    else
      let (body, n) := stringBody quote r
      (body.map fun b => '\\' :: c :: b, n + 2)
  | c :: r =>
    if c = quote then (some [], 1)
    else
      let (body, n) := stringBody quote r
      (body.map (c :: ·), n + 1)

/-- The digits in front, and a point with the digits behind it if there are digits on both sides of
it. -/
def numberChars (cs : List Char) : List Char :=
  let whole := cs.takeWhile Char.isDigit
  match whole, cs.drop whole.length with
  | _ :: _, '.' :: r =>
    let fraction := r.takeWhile Char.isDigit
    if fraction.isEmpty then whole else whole ++ '.' :: fraction
  | _, _ => whole

/-- The token in front, if there is one, and how many characters were followed. -/
def scan : List Char → Option Token × Nat
  | [] => (none, 0)
  | '<' :: '/' :: _ => (some closeTagOpen, 2)
  | '<' :: _ => (some less, 1)
  | '/' :: '>' :: _ => (some selfClose, 2)
  | '>' :: _ => (some greater, 1)
  | '=' :: _ => (some equals, 1)
  | '\x7b' :: _ => (some leftBrace, 1)
  | '\x7d' :: _ => (some rightBrace, 1)
  | ':' :: _ => (some colon, 1)
  | ',' :: _ => (some comma, 1)
  | ';' :: _ => (some semicolon, 1)
  | '*' :: _ => (some star, 1)
  | '"' :: r =>
    let (body, n) := stringBody '"' r
    (body.map fun b => string .double (String.ofList b), n + 1)
  | '\'' :: r =>
    let (body, n) := stringBody '\'' r
    (body.map fun b => string .single (String.ofList b), n + 1)
  | '-' :: r =>
    let ds := numberChars r
    if ds.isEmpty then (none, 1) else (some (number (String.ofList ('-' :: ds))), ds.length + 1)
  | c :: r =>
    if isIdentStart c then
      let name := c :: r.takeWhile isIdentRest
      (some (ident (String.ofList name)), name.length)
    else if c.isDigit then
      let ds := numberChars (c :: r)
      (some (number (String.ofList ds)), ds.length)
    else (none, 1)

theorem numberChars_ne_nil {c : Char} (r : List Char) (h : c.isDigit = true) :
    numberChars (c :: r) ≠ [] := by
  simp only [numberChars, List.takeWhile_cons, h, if_true]
  split
  · split <;> simp
  · simp

theorem scan_pos (c : Char) (r : List Char) : 0 < (scan (c :: r)).2 := by
  unfold scan
  split <;> (try simp only []) <;> (try omega)
  · cases ‹_ :: _ = []›
  · split <;> simp
  · split
    · simp
    · split
      · rename_i h
        exact List.length_pos_iff.2 (numberChars_ne_nil _ h)
      · simp

end Token

/-! ## Lexing -/

/-- What comes next behind blanks, and where the reading goes on. -/
inductive Lexed
  | token (t : Token) (span : Span) (next : Cursor)
  | invalid (span : Span) (next : Cursor)
  | finished
  deriving DecidableEq, Repr

namespace Cursor

def skipSpace (c : Cursor) : Cursor := c.advance (c.rest.takeWhile Token.isSpace).length

/-- The next token. -/
def lex (c : Cursor) : Lexed :=
  let start := c.skipSpace
  if start.rest.isEmpty then .finished
  else
    let next := start.advance (Token.scan start.rest).2
    match (Token.scan start.rest).1 with
    | some t => .token t (start.span next) next
    | none => .invalid (start.span next) next

theorem skipSpace_length_le (c : Cursor) : c.skipSpace.rest.length ≤ c.rest.length := by
  simp [skipSpace, advance]

theorem advance_scan_length_lt {c : Cursor} (h : c.rest.isEmpty = false) :
    (c.advance (Token.scan c.rest).2).rest.length < c.rest.length := by
  cases hr : c.rest with
  | nil => simp [hr] at h
  | cons a r =>
    have hp := Token.scan_pos a r
    simp only [advance, hr, List.length_drop, List.length_cons]
    omega

theorem lex_token_length_lt {c d : Cursor} {t : Token} {s : Span} (h : c.lex = .token t s d) :
    d.rest.length < c.rest.length := by
  simp only [lex] at h
  have h0 := c.skipSpace_length_le
  split at h
  · cases h
  · rename_i he
    split at h
    · cases h
      exact Nat.lt_of_lt_of_le (advance_scan_length_lt (by simpa using he)) h0
    · cases h

theorem lex_invalid_length_lt {c d : Cursor} {s : Span} (h : c.lex = .invalid s d) :
    d.rest.length < c.rest.length := by
  simp only [lex] at h
  have h0 := c.skipSpace_length_le
  split at h
  · cases h
  · rename_i he
    split at h
    · cases h
    · cases h
      exact Nat.lt_of_lt_of_le (advance_scan_length_lt (by simpa using he)) h0

/-- All tokens from here on with their spans; what starts no token is left out. -/
def tokens (c : Cursor) : List (Token × Span) :=
  match h : c.lex with
  | .token t span next => (t, span) :: next.tokens
  | .invalid _ next => next.tokens
  | .finished => []
termination_by c.rest.length
decreasing_by
  · exact lex_token_length_lt h
  · exact lex_invalid_length_lt h

end Cursor

end PageEditor
