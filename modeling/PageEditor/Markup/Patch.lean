import PageEditor.Markup.MissingImports
import PageEditor.Markup.Printer

/-!
# Patching

The text of an edited tree, as close to the text it was read from as can be. A node that has not
changed keeps its text. One whose props have changed gets a new open tag, one whose text has changed
gets the new text in place of the old, and one whose children have changed gets new lines for them.
A node that does not stem from this text is printed from scratch.
-/
set_option autoImplicit false
set_option linter.unusedVariables false

namespace PageEditor

/-! ## Origins -/

/-- The characters of a span; none when it does not fit the text. -/
def sliceOr (source : List Char) (s : Span) : List Char := (Text.slice source s).getD []

/-- The origin of a node, if the text still has its fragment at that place. -/
def Node.originIn? (source : List Char) (n : Node) : Option Origin :=
  n.origin.filter fun o => Text.slice source o.place.span == some o.place.fragment.toList

/-- Whether each node stems from the text, in this order, from the offset `start` on. -/
def Node.inOrder (source : List Char) (start : Nat) : List Node → Bool
  | [] => true
  | n :: ns =>
    match n.originIn? source with
    | some o => decide (start ≤ o.place.span.start) && inOrder source o.place.span.stop ns
    | none => false

/-! ## Nodes -/

/-- New text in place of the old one, blanks at the ends of the region kept. -/
def spliceText (region text : List Char) : List Char :=
  let trimmed := Text.trim region
  if trimmed.isEmpty then text
  else
    let lead := Text.leading region
    lead ++ text ++ region.drop (lead.length + trimmed.length)

/-- The content of an element without children: its region with the present text. -/
def Node.patchedText (source : List Char) (n : Node) (content : Span) : List Char :=
  let region := sliceOr source content
  if n.textChanged then spliceText region (Value.escapeText (n.fields.text.getD "")) else region

namespace Node

mutual

/-- The text of a node that is `depth` levels deep. -/
def patched (source : List Char) (depth : Nat) : Node → List Char
  | ⟨id, fields, component, origin, children⟩ =>
    let n : Node := ⟨id, fields, component, origin, children⟩
    match n.originIn? source with
    | none => n.markup defaultIndent depth
    | some o =>
      if fields.type ≠ o.fields.type then n.markup defaultIndent depth
      else if fields.type = textType then
        if n.textChanged then Value.escapeText (fields.text.getD "") else o.place.fragment.toList
      else if fields.type = expressionType then
        if n.textChanged then '\x7b' :: n.textChars ++ ['\x7d'] else o.place.fragment.toList
      else
        match o.place.content with
        | none =>
          if !children.isEmpty || n.text?.isSome then n.markup defaultIndent depth
          else if n.propsChanged then fields.openTag true
          else o.place.fragment.toList
        | some content =>
          let tag := if n.propsChanged then fields.openTag false else sliceOr source o.place.openTag
          let body :=
            if children.isEmpty then
              if o.childIds.isEmpty then n.patchedText source content
              else Value.escapeText (n.text?.getD "")
            else if n.childrenChanged || n.textChanged || !inOrder source 0 children then
              firstLine defaultIndent depth n.text? ++ patchedLines source (depth + 1) children
                ++ indentation defaultIndent depth
            else patchedBetween source (depth + 1) ⟨content.start, content.stop⟩ children
          tag ++ body ++ sliceOr source ⟨content.stop, o.place.span.stop⟩

/-- Each node on an indented line of its own. -/
def patchedLines (source : List Char) (depth : Nat) : List Node → List Char
  | [] => []
  | n :: ns =>
    indentation defaultIndent depth ++ patched source depth n ++ '\n' :: patchedLines source depth ns

/-- A region in which each node's span is replaced by its text. -/
def patchedBetween (source : List Char) (depth : Nat) (region : Span) : List Node → List Char
  | [] => sliceOr source region
  | n :: ns =>
    match n.originIn? source with
    | none => patchedBetween source depth region ns
    | some o =>
      sliceOr source ⟨region.start, o.place.span.start⟩ ++ patched source depth n
        ++ patchedBetween source depth ⟨o.place.span.stop, region.stop⟩ ns

end

/-- Nodes at the top of a page with line feeds between them. -/
def patchedTop (source : List Char) : List Node → List Char
  | [] => []
  | [n] => n.patched source 0
  | n :: ns => n.patched source 0 ++ '\n' :: patchedTop source ns

end Node

/-! ## Trees -/

namespace Tree

/-- The text of a tree that does not stem from the text: its imports, and the tree from scratch. -/
def printBehindImports (t : Tree) (source : List Char) : List Char :=
  let stop := match (Cursor.ofText source).prelude with
    | .ok (imports, _) => Import.endOffset imports
    | .error _ => 0
  sliceOr source ⟨0, stop⟩ ++ (if 0 < stop then ['\n', '\n'] else []) ++ t.print ++ ['\n']

/-- The text of an edited tree, before imports are added. -/
def patched (t : Tree) (source : List Char) : List Char :=
  match t.root.originIn? source with
  | none => t.printBehindImports source
  | some o =>
    let region := o.place.span
    let body :=
      if t.root.childrenChanged || !Node.inOrder source 0 t.root.children then
        Node.patchedTop source t.root.children
      else Node.patchedBetween source 0 region t.root.children
    sliceOr source ⟨0, region.start⟩ ++ body
      ++ sliceOr source ⟨region.stop, Text.byteLength source⟩

/-- The text of an edited tree: all that has not changed is kept, and the imports of new components
are added. -/
def regenerate (t : Tree) (source : String) : String :=
  String.ofList (t.syncImports (t.patched source.toList))

end Tree

end PageEditor
