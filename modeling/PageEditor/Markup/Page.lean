import PageEditor.Markup.Element
import PageEditor.Markup.Import
import PageEditor.Markup.Value
import PageEditor.Tree

/-!
# Pages

A page is its imports and its tree of nodes. `Page.read` reads one from a text: import statements,
then elements with blanks and comments between them, then perhaps a text without markup. Every node
remembers its place. Ids are given out in the order of the text.
-/
set_option autoImplicit false
set_option linter.unusedVariables false

namespace PageEditor

/-! ## Components -/

/-- What a tag name stands for. It is the name of a component when it begins with a capital letter
or has a dot; what its first part means is looked up among the imports. -/
def ComponentInfo.ofTag? (imports : List Import) (tag : String) : Option ComponentInfo :=
  let base := String.ofList (tag.toList.takeWhile (· != '.'))
  let member? := match tag.toList.dropWhile (· != '.') with
    | [] => none
    | _ :: r => some (String.ofList r)
  if (tag.toList.head?.any Char.isUpper) ∨ member?.isSome then
    match Import.resolve? imports base with
    | none => some ⟨true, "", tag, .named⟩
    | some (package, b) =>
      let imported := match b.kind, member? with
        | .whole, some member => member
        | .whole, none => b.localName
        | .default, some member => b.localName ++ "." ++ member
        | .default, none => b.localName
        | .named, some member => b.imported ++ "." ++ member
        | .named, none => b.imported
      some ⟨true, package, imported, b.kind⟩
  else none

/-! ## Nodes from markup -/

namespace Node

mutual

/-- The node of a piece of markup, with ids from `g`. A run of text that is all an element holds is
the element's own text; its id is given out all the same. -/
def ofMarkup (imports : List Import) (g : IdSource) : Markup → Node × IdSource
  | .text place content =>
    let (id, g) := g.next
    (withPlace { id, fields := { type := textType, text := some content } } place, g)
  | .expression place inner =>
    let (id, g) := g.next
    (withPlace { id, fields := { type := expressionType, text := some inner } } place, g)
  | .element place tag attributes children =>
    let (id, g) := g.next
    let (nodes, g) := allOfMarkup imports g children
    let fields := Fields.ofTag tag attributes
    let component := ComponentInfo.ofTag? imports tag
    match children with
    | [.text _ content] =>
      (withPlace { id, fields := { fields with text := some content }, component } place, g)
    | _ => (withPlace { id, fields, component, children := nodes } place, g)

def allOfMarkup (imports : List Import) (g : IdSource) : List Markup → List Node × IdSource
  | [] => ([], g)
  | m :: ms =>
    let (n, g) := ofMarkup imports g m
    let (ns, g) := allOfMarkup imports g ms
    (n :: ns, g)

end

end Node

/-! ## Top-level elements -/

namespace Cursor

/-- Reads elements up to the end of the text. Behind the first one, a text without markup is left
alone. -/
def elements (first : Bool) (c : Cursor) : Except ParseError (List Markup) :=
  let d := c.skipTrivia
  match h : d.rest with
  | [] => .ok []
  | '<' :: _ =>
    match h' : d.element with
    | .error e => .error e
    | .ok (m, after) =>
      match after.elements false with
      | .error e => .error e
      | .ok more => .ok (m :: more)
  | _ =>
    if first ∨ d.rest.contains '<' then .error (.expectedElement ⟨d.offset, d.offset + 1⟩)
    else .ok []
termination_by c.rest.length
decreasing_by
  exact Nat.lt_of_lt_of_le (element_length_lt h') c.skipTrivia_length_le

end Cursor

/-- The span from the first piece of markup to the last one; empty at `start` without any. -/
def Markup.region (start : Nat) (ms : List Markup) : Span :=
  match ms.head?, ms.getLast? with
  | some first, some last => ⟨first.place.span.start, last.place.span.stop⟩
  | _, _ => ⟨start, start⟩

/-! ## Pages -/

structure Page where
  imports : List Import
  tree : Tree

namespace Page

/-- The page of a text whose imports and top-level markup are read. -/
def ofParts (source : List Char) (imports : List Import) (top : List Markup) (ids : IdSource) :
    Page :=
  let region := Markup.region (Import.endOffset imports) top
  let (nodes, ids) := Node.allOfMarkup imports ids top
  let fragment := String.ofList ((Text.slice source region).getD [])
  let root := { Node.root with children := nodes }
  let place : Place := ⟨region, ⟨region.start, region.start⟩, some region, fragment⟩
  ⟨imports, .around (root.withPlace place) ids⟩

/-- Reads a page, with ids made from `key`. -/
def read (source : String) (key : String := Tree.defaultKey) : Except ParseError Page := do
  let (imports, c) ← (Cursor.ofText source.toList).prelude
  let top ← c.elements true
  return ofParts source.toList imports top (.ofKey key)

end Page

end PageEditor
