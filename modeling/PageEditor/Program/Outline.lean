import PageEditor.Text.Blank
import PageEditor.Text.Quoted
import PageEditor.Tree

/-!
# Outlines

A tree as text, one line for each node: its type, id, package, classes and text, indented by its
depth.
-/
set_option autoImplicit false

namespace PageEditor

/-- The line of a node without its indentation. -/
def Node.outlineLine (n : Node) : String :=
  n.type ++ " #" ++ n.id
    ++ ((n.component.map fun c => " [" ++ c.package ++ "]").getD "")
    ++ (if n.fields.className = "" then ""
      else " ." ++ String.intercalate "." (Text.words n.fields.className))
    ++ ((n.fields.text.map fun t => " " ++ Text.quoted t).getD "")

mutual

/-- The lines of a node and of all nodes below it. -/
def Node.outlineLines (depth : Nat) : Node → List String
  | ⟨id, fields, component, origin, children⟩ =>
    (String.ofList (List.replicate (2 * depth) ' ')
      ++ Node.outlineLine ⟨id, fields, component, origin, children⟩)
    :: Node.outlineLinesAll (depth + 1) children

def Node.outlineLinesAll (depth : Nat) : List Node → List String
  | [] => []
  | n :: ns => n.outlineLines depth ++ Node.outlineLinesAll depth ns

end

def Tree.outline (t : Tree) : String := String.join ((t.root.outlineLines 0).map (· ++ "\n"))

end PageEditor
