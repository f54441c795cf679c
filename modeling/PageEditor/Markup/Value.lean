import PageEditor.Json.Printer
import PageEditor.Json.Reader
import PageEditor.Markup.Attribute
import PageEditor.Node.Json
import PageEditor.Text.Blank

/-!
# Values of attributes and styles

How the values that are written in a tag are kept. A quoted string is kept without its quotes, and
an expression with its braces; a string that looks like an expression is kept as an expression that
quotes it. A style object is kept key by key. `literal` goes back from what is kept to what is
meant.
-/
set_option autoImplicit false
set_option linter.unusedVariables false

namespace PageEditor.Value

/-! ## Expressions -/

/-- Whether a value is kept as an expression in braces. -/
def isExpression (value : String) : Bool :=
  match value.toList with
  | '\x7b' :: c :: r => (c :: r).getLast? == some '\x7d'
  | _ => false

/-- What stands between the braces of an expression. -/
def inside (value : String) : List Char := value.toList.tail.dropLast

/-- An expression in braces. -/
def braced (cs : List Char) : String := String.ofList ('\x7b' :: cs ++ ['\x7d'])

/-- The expression that quotes a string. -/
def quoted (s : String) : String := braced (Json.quote s.toList)

/-- The value of a flag, which is an attribute without a value. -/
def flag : String := "\x7btrue\x7d"

/-- A text without the quotes around it, if there are two of one kind. -/
def unquote (s : String) : String :=
  let cs := s.toList
  if 2 ≤ cs.length ∧ cs.getLast? = cs.head? ∧ (cs.head? = some '"' ∨ cs.head? = some '\'') then
    String.ofList (inside s)
  else s

/-- The value that is kept for a quoted string. -/
def ofLiteral (s : String) : String := if isExpression s then quoted s else s

/-- The string that a value means: an expression that is a JSON string means its content, a number
or a truth value means its text, and everything else means itself. -/
def literal (value : String) : String :=
  if isExpression value then
    match Json.read? (Text.trim (inside value)) with
    | some (.string s) => s
    | some (.number n) => String.ofList (Json.numberText n)
    | some (.bool b) => (Json.bool b).text
    | _ => value
  else value

/-! ## Styles -/

/-- The value that is kept for a string in a style object. One that looks like a number keeps its
quotes. -/
def ofStyleString (s : String) : String :=
  if Decimal.isNumeral (Text.trim s.toList) then quoted s else s

/-- Reads the entries of a style object behind its opening brace. -/
def styleEntries (c : Cursor) : Option (List (String × String) × Cursor) :=
  match h : c.peek? with
  | none => none
  | some l =>
    let key? := match l.token with
      | .ident name => some name
      | .string _ body => some body
      | _ => none
    match l.token, key? with
    | .rightBrace, _ => some ([], l.next)
    | _, none => none
    | _, some key =>
      match h2 : l.next.peek? with
      | none => none
      | some colon =>
        match h3 : colon.next.peek? with
        | none => none
        | some v =>
          let value? := match v.token with
            | .string _ body => some (ofStyleString body)
            | .number digits => some digits
            | .ident name => some (braced name.toList)
            | _ => none
          match h4 : v.next.peek? with
          | none => none
          | some last =>
            match value? with
            | none => none
            | some value =>
              if colon.token ≠ .colon then none
              else if last.token = .rightBrace then some ([(key, value)], last.next)
              else if last.token = .comma then
                (styleEntries last.next).map fun (more, d) => ((key, value) :: more, d)
              else none
termination_by c.rest.length
decreasing_by
  have h1 := Cursor.peek?_length_lt h
  have h2 := Cursor.peek?_length_lt h2
  have h3 := Cursor.peek?_length_lt h3
  have h4 := Cursor.peek?_length_lt h4
  omega

/-- Reads an expression that is a style object: names or strings, each with a string, a number or a
name; `none` when it is something else. -/
def styleObject? (raw : String) : Option (OrderedMap String) :=
  match raw.toList with
  | '\x7b' :: '\x7b' :: _ =>
    if raw.toList.reverse.take 2 = ['\x7d', '\x7d'] then
      match styleEntries (Cursor.ofText (inside raw).tail) with
      | some (entries, rest) =>
        if (Text.trim rest.rest).isEmpty then some (.ofList entries) else none
      | none => none
    else none
  | _ => none

end PageEditor.Value

namespace PageEditor

/-! ## Fields of an open tag -/

/-- The attribute that carries an element's animation. -/
def animationAttribute : String := "data-animation"

/-- Reads the settings of an animation from a text. -/
def Animation.ofText? (s : String) : Option Animation :=
  (Json.read? s.toList).bind (Animation.ofJson? Json.depthLimit false)

namespace Fields

def setAttribute (f : Fields) (name value : String) : Fields :=
  { f with attributes := f.attributes.insert name value }

/-- Takes in one attribute of an open tag. -/
def take (f : Fields) (a : Attribute) : Fields :=
  match a.value with
  | .literal body =>
    if a.name = "className" ∨ a.name = "class" then { f with className := body }
    else if a.name = animationAttribute then
      match Animation.ofText? body with
      | some animation => { f with animation := some animation }
      | none => f.setAttribute a.name body
    else f.setAttribute a.name (Value.ofLiteral body)
  | .expression raw =>
    if a.name = "style" then
      match Value.styleObject? raw with
      | some style => { f with style }
      | none => f.setAttribute a.name raw
    else f.setAttribute a.name raw
  | .flag => f.setAttribute a.name Value.flag

/-- The fields that an open tag gives an element. -/
def ofTag (type : String) (attributes : List Attribute) : Fields :=
  attributes.foldl take { type }

end Fields

end PageEditor
