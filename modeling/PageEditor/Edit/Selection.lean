import PageEditor.Tree

/-!
# Selection

The selected node, if there is one, and the way from the root to it.
-/
set_option autoImplicit false

namespace PageEditor

/-- What a node is called in a breadcrumb. -/
def Node.label (n : Node) : String :=
  if n.isRoot then "Page"
  else if n.isText then "Text"
  else if n.isExpression then "Expression"
  else n.type

/-- A step on the way to the selected node. -/
structure Crumb where
  id : String
  label : String
  deriving DecidableEq, Repr

structure Selection where
  id : Option String := none
  deriving DecidableEq, Repr

namespace Selection

/-- Selects a node; nothing is selected when the tree does not have it. -/
def select (t : Tree) (id : String) : Selection := if t.contains id then ⟨some id⟩ else {}

/-- Drops a selection that the tree does not have. -/
def reconcile (s : Selection) (t : Tree) : Selection := ⟨s.id.filter t.contains⟩

def crumbs (s : Selection) (t : Tree) : List Crumb :=
  match s.id with
  | none => []
  | some id => (t.path id).map fun n => ⟨n.id, n.label⟩

end Selection

end PageEditor
