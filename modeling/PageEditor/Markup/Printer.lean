import PageEditor.Markup.Value
import PageEditor.Tree

/-!
# Printing nodes

Nodes written as markup from scratch. An open tag has the class first, then the style object, then
the attributes in their order, then the animation. An element with children has each of them on a
line of its own, one level deeper.
-/
set_option autoImplicit false

namespace PageEditor

/-! ## Texts and values -/

namespace Value

/-- Text that would be read as markup is written as an expression that quotes it. -/
def escapeText (s : String) : List Char :=
  if s.toList.any fun c => c == '<' || c == '>' || c == '\x7b' || c == '\x7d' then
    (quoted s).toList
  else s.toList

/-- An attribute's string between quotes, or as an expression if it has a quote itself. -/
def quoteAttribute (s : String) : List Char :=
  if s.toList.contains '"' then (quoted s).toList else '"' :: s.toList ++ ['"']

/-- The value of an attribute behind its name; a flag is written without one. -/
def attributeText (value : String) : List Char :=
  if value = flag then []
  else '=' :: if isExpression value then value.toList else quoteAttribute value

def isStyleNameChar (c : Char) : Bool := c.isAlphanum || c == '_' || c == '$'

/-- A key of a style object, between quotes unless it is a plain name. -/
def styleKeyText (key : String) : List Char :=
  if key ≠ "" ∧ key.toList.all isStyleNameChar then key.toList else '"' :: key.toList ++ ['"']

/-- A value of a style object: what stands in an expression, a number, or a quoted string. -/
def styleValueText (value : String) : List Char :=
  if isExpression value then inside value
  else if Decimal.isNumeral value.toList then value.toList
  else Json.quote value.toList

/-- The entries of a style object. -/
def styleText : List (String × String) → List Char
  | [] => []
  | [(k, v)] => styleKeyText k ++ ": ".toList ++ styleValueText v
  | (k, v) :: more =>
    styleKeyText k ++ ": ".toList ++ styleValueText v ++ ", ".toList ++ styleText more

end Value

/-! ## Tags -/

namespace Fields

/-- Whether an attribute gives way to the class or the style. -/
def isSuperseded (f : Fields) (name : String) : Bool :=
  if name = "className" ∨ name = "class" then f.className ≠ ""
  else if name = "style" then !f.style.isEmpty
  else false

def classText (f : Fields) : List Char :=
  if f.className = "" then [] else " className=".toList ++ Value.quoteAttribute f.className

def styleText (f : Fields) : List Char :=
  if f.style.isEmpty then []
  else " style=\x7b\x7b ".toList ++ Value.styleText f.style.entries ++ " \x7d\x7d".toList

def attributesText (f : Fields) : List Char :=
  (f.attributes.entries.filter fun e => !f.isSuperseded e.1).flatMap fun e =>
    ' ' :: e.1.toList ++ Value.attributeText e.2

/-- Settings as a single-quoted attribute; an apostrophe in them is written by its number. -/
def animationText (f : Fields) : List Char :=
  match f.animation with
  | none => []
  | some a =>
    ' ' :: animationAttribute.toList ++ "='".toList
      ++ a.toJson.compact.flatMap (fun c => if c = '\'' then "\\u0027".toList else [c])
      ++ "'".toList

/-- The open tag; `closed` tells whether it closes itself. -/
def openTag (f : Fields) (closed : Bool) : List Char :=
  '<' :: f.type.toList ++ f.classText ++ f.styleText ++ f.attributesText ++ f.animationText
    ++ (if closed then " />".toList else ">".toList)

def closeTag (f : Fields) : List Char := "</".toList ++ f.type.toList ++ ">".toList

end Fields

/-! ## Nodes -/

/-- The blanks in front of a line, `depth` levels deep. -/
def indentation (indent : List Char) (depth : Nat) : List Char :=
  (List.replicate depth indent).flatten

/-- Two blanks for each level. -/
def defaultIndent : List Char := [' ', ' ']

namespace Node

/-- The text of a node, or nothing. -/
def textChars (n : Node) : List Char := (n.fields.text.getD "").toList

mutual

/-- The markup of a node whose first line is already indented. -/
def markup (indent : List Char) (depth : Nat) : Node → List Char
  | ⟨id, fields, component, origin, children⟩ =>
    let n : Node := ⟨id, fields, component, origin, children⟩
    if fields.type = rootType then topLines indent depth children
    else if fields.type = textType then Value.escapeText (fields.text.getD "")
    else if fields.type = expressionType then '\x7b' :: n.textChars ++ ['\x7d']
    else
      match children, n.text? with
      | [], none => fields.openTag true
      | [], some t => fields.openTag false ++ Value.escapeText t ++ fields.closeTag
      | _ :: _, _ =>
        fields.openTag false ++ firstLine indent depth n.text? ++ lines indent (depth + 1) children
          ++ indentation indent depth ++ fields.closeTag

/-- Each node on an indented line of its own. -/
def lines (indent : List Char) (depth : Nat) : List Node → List Char
  | [] => []
  | n :: ns => indentation indent depth ++ markup indent depth n ++ '\n' :: lines indent depth ns

/-- The nodes at the top of a page, with line feeds between them. -/
def topLines (indent : List Char) (depth : Nat) : List Node → List Char
  | [] => []
  | n :: ns => markup indent depth n ++ moreTopLines indent depth ns

def moreTopLines (indent : List Char) (depth : Nat) : List Node → List Char
  | [] => []
  | n :: ns =>
    '\n' :: indentation indent depth ++ markup indent depth n ++ moreTopLines indent depth ns

/-- The line feed behind an open tag, and the element's own text on a line of its own. -/
def firstLine (indent : List Char) (depth : Nat) (text : Option String) : List Char :=
  '\n' :: match text with
    | none => []
    | some t => indentation indent (depth + 1) ++ Value.escapeText t ++ ['\n']

end

/-- What stands between the tags of an element that has children. -/
def contentMarkup (indent : List Char) (depth : Nat) (n : Node) : List Char :=
  firstLine indent depth n.text? ++ lines indent (depth + 1) n.children ++ indentation indent depth

end Node

namespace Tree

/-- The markup of a whole tree. -/
def print (t : Tree) : List Char := t.root.markup defaultIndent 0

end Tree

end PageEditor
