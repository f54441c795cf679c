import PageEditor.Edit.Defaults
import PageEditor.Tree

/-!
# Structural edits

Adding, duplicating, deleting, moving and updating nodes of a tree. Each edit first checks whether it
can be done and says what is wrong if it cannot. It gives the tree back in either case; one that is
well-formed comes back as it was if the edit cannot be done. A node that moves or is copied forgets
where it stood in the text, and a copy has fresh ids throughout.
-/
set_option autoImplicit false

namespace PageEditor

/-! ## Positions -/

/-- Where a node lands, seen from the node it is dropped on. -/
inductive DropPosition
  | before | after
  /-- Behind the last child of the target. -/
  | inside
  /-- Behind the target's parent. -/
  | outside
  /-- Behind the last top-level node. -/
  | root
  deriving DecidableEq, Repr

namespace DropPosition

def all : List DropPosition := [before, after, inside, outside, root]

def name : DropPosition → String
  | before => "before"
  | after => "after"
  | inside => "inside"
  | outside => "outside"
  | root => "root"

def ofName? (s : String) : Option DropPosition := all.find? (·.name == s)

theorem ofName?_name (p : DropPosition) : ofName? p.name = some p := by
  cases p <;> decide

end DropPosition

/-! ## Errors -/

/-- Why an edit cannot be done. -/
inductive EditError
  | nodeNotFound (id : String)
  | parentNotFound (id : String)
  | cycle
  | rootProtected
  | sameNode
  | invalidPosition (position : DropPosition) (target : String)
  deriving DecidableEq, Repr

def EditError.message : EditError → String
  | nodeNotFound id => "Node not found: " ++ id
  | parentNotFound id => "Parent not found: " ++ id
  | cycle => "Would create cycle"
  | rootProtected => "The root element cannot be moved, deleted or replaced"
  | sameNode => "Cannot drop a node onto itself"
  | invalidPosition position target =>
    "Cannot place a node " ++ position.name ++ " '" ++ target ++ "'"

/-! ## Children of a node -/

namespace Node

/-- Puts a child at an index, or behind the last one if there are not so many. -/
def insertChild (n : Node) (index : Nat) (child : Node) : Node :=
  { n with children := n.children.insertIdx (min index n.children.length) child }

/-- Drops every child with that id. -/
def dropChildren (id : String) (n : Node) : Node :=
  { n with children := n.children.filter (·.id != id) }

/-- Drops the first child with that id. -/
def eraseChild (id : String) (n : Node) : Node :=
  { n with children := n.children.eraseP (·.id == id) }

/-- Puts another node in the place of the first child with that id. -/
def replaceChild (n : Node) (id : String) (child : Node) : Node :=
  { n with children := n.children.set (n.children.findIdx (·.id == id)) child }

/-! ## Copies -/

mutual

/-- A copy with ids from `g` that are not taken and without memory of a text. -/
def copy (taken : List String) (g : IdSource) : Node → Node × IdSource
  | ⟨_, fields, component, _, children⟩ =>
    let (id, g) := g.fresh taken
    let (cs, g) := copyAll taken g children
    (⟨id, fields, component, none, cs⟩, g)

def copyAll (taken : List String) (g : IdSource) : List Node → List Node × IdSource
  | [] => ([], g)
  | n :: ns =>
    let (n, g) := copy taken g n
    let (ns, g) := copyAll taken g ns
    (n :: ns, g)

end

end Node

/-! ## Destinations -/

/-- A place among the children of a node. -/
inductive Anchor
  | before (id : String)
  | after (id : String)
  | last
  deriving DecidableEq, Repr

/-- The index of an anchor; one that is missing means the last place. -/
def Anchor.index (a : Anchor) (children : List Node) : Nat :=
  match a with
  | before id => (children.findIdx? (·.id == id)).getD children.length
  | after id => ((children.findIdx? (·.id == id)).map (· + 1)).getD children.length
  | last => children.length

/-- Where a moved node goes. -/
structure Destination where
  parent : String
  anchor : Anchor
  deriving DecidableEq, Repr

namespace Tree

/-! ## Edits -/

/-- Adds a new node of a type under a parent and returns its id. Given text and attributes come
before the defaults. -/
def add (t : Tree) (d : Defaults) (parentId type : String) (index : Option Nat)
    (text : Option String) (attributes : List (String × String)) : Except EditError String × Tree :=
  match t.find? parentId with
  | none => (.error (.parentNotFound parentId), t)
  | some parent =>
    if parent.isLeaf then (.error (.invalidPosition .inside parentId), t)
    else
      let (id, t) := t.freshId
      let plain := d.build id type
      let node : Node := { plain with
        fields := { plain.fields with
          text := text.or plain.fields.text
          attributes := plain.fields.attributes.insertAll attributes } }
      (.ok id, t.editNode parentId fun p => p.insertChild (index.getD p.children.length) node)

/-- Puts a copy of a node behind it. The copies of the root's children go behind the last of them.
Returns the ids of the copies. -/
def duplicate (t : Tree) (id : String) : Except EditError (List String) × Tree :=
  match t.find? id with
  | none => (.error (.nodeNotFound id), t)
  | some n =>
    if n.isRoot then
      let (copies, ids) := Node.copyAll t.takenIds t.ids n.children
      (.ok (copies.map (·.id)),
        { t with ids }.edit fun root => { root with children := root.children ++ copies })
    else
      match t.parentId? id with
      | none => (.error (.parentNotFound id), t)
      | some parentId =>
        let index := (t.indexInParent? id).getD 0
        let (c, ids) := n.copy t.takenIds t.ids
        (.ok [c.id], { t with ids }.editNode parentId (·.insertChild (index + 1) c))

/-- Deletes a node with all that is below it. -/
def delete (t : Tree) (id : String) : Except EditError Unit × Tree :=
  if id = rootId then (.error .rootProtected, t)
  else
    match t.parentId? id with
    | none => (.error (.nodeNotFound id), t)
    | some parentId => (.ok (), t.editNode parentId (·.dropChildren id))

/-- The place that a position at a target means, if there is such a place. -/
def place? (t : Tree) (target : Node) : DropPosition → Option Destination
  | .before => (t.parentId? target.id).map (⟨·, .before target.id⟩)
  | .after => (t.parentId? target.id).map (⟨·, .after target.id⟩)
  | .inside => if target.isLeaf then none else some ⟨target.id, .last⟩
  | .outside => do
    let parent ← t.parentId? target.id
    let above ← t.parentId? parent
    return ⟨above, .after parent⟩
  | .root => some ⟨rootId, .last⟩

/-- The parent that a node leaves and the place that it goes to. A node never goes below itself, nor
is it dropped on a node below itself. -/
def planMove (t : Tree) (source target : String) (position : DropPosition) :
    Except EditError (String × Destination) :=
  if source = rootId then .error .rootProtected
  else if source = target then .error .sameNode
  else
    match t.parentId? source, t.find? target with
    | none, _ => .error (.nodeNotFound source)
    | _, none => .error (.nodeNotFound target)
    | some fromId, some n =>
      match t.place? n position with
      | none => .error (.invalidPosition position target)
      | some d =>
        if t.isDescendant source target ∨ t.hierarchy.wouldCycle source d.parent then .error .cycle
        else .ok (fromId, d)

/-- Moves a node next to or into another one and returns the id of its new parent. What was planned
by an index that no longer fits the nodes may turn out to be impossible; a node whose destination is
missing stays where it is. -/
def move (t : Tree) (source target : String) (position : DropPosition) :
    Except EditError String × Tree :=
  match t.planMove source target position with
  | .error e => (.error e, t)
  | .ok (fromId, d) =>
    match t.find? fromId with
    | none => (.error (.parentNotFound fromId), t.reindex)
    | some p =>
      match p.children.find? (·.id == source) with
      | none => (.error (.nodeNotFound source), t.reindex)
      | some n =>
        let without := t.editNode fromId (·.eraseChild source)
        match without.find? d.parent with
        | none =>
          (.error (.parentNotFound d.parent),
            t.editNode fromId (·.replaceChild source n.forget))
        | some _ =>
          (.ok d.parent,
            without.editNode d.parent fun p =>
              p.insertChild (d.anchor.index p.children) n.forget)

/-- Gives the node with the id of `n` the fields and the component of `n`; its children stay. -/
def update (t : Tree) (n : Node) : Except EditError Unit × Tree :=
  if n.id = rootId then (.error .rootProtected, t)
  else
    match t.find? n.id with
    | none => (.error (.nodeNotFound n.id), t)
    | some _ => (.ok (), t.modify n.id (·.assign n))

end Tree

end PageEditor
