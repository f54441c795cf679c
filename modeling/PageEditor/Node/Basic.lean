import PageEditor.Node.Animation
import PageEditor.OrderedMap
import PageEditor.Text.Span

/-!
# Nodes

A node of a page: an element, a run of text, a raw expression, or the root that holds the page's
top-level nodes. A node that was read from a text remembers where it stood there and what its
fields were, so that what has changed since can be told from what has not.
-/
set_option autoImplicit false

namespace PageEditor

/-! ## Reserved names -/

/-- The id of the root. -/
def rootId : String := "root"

def rootType : String := "#root"

/-- The type of a run of text between elements. -/
def textType : String := "#text"

/-- The type of a raw expression in braces. -/
def expressionType : String := "#expression"

/-! ## Components -/

/-- How a name was brought in from a package. -/
inductive ImportKind
  | named | default | whole
  deriving DecidableEq, Repr

/-- What a component stands for: the name `imported` of `package`. -/
structure ComponentInfo where
  isComponent : Bool
  package : String
  imported : String
  kind : ImportKind
  deriving DecidableEq, Repr

/-! ## Fields -/

/-- What can be edited about a node, apart from its component. -/
structure Fields where
  type : String
  className : String := ""
  style : OrderedMap String := .empty
  attributes : OrderedMap String := .empty
  text : Option String := none
  animation : Option Animation := none

/-- Equality of settings that may be missing. -/
def sameAnimation : Option Animation → Option Animation → Bool
  | none, none => true
  | some a, some b => a.same b
  | _, _ => false

namespace Fields

/-- Whether class, style, attributes and animation agree. -/
def sameProps (a b : Fields) : Bool :=
  a.className == b.className && a.style.same b.style && a.attributes.same b.attributes
    && sameAnimation a.animation b.animation

def same (a b : Fields) : Bool :=
  a.type == b.type && a.text == b.text && a.sameProps b

end Fields

/-! ## Origins -/

/-- Where a node stood in the text it was read from, and what its fields and its children's ids
were at that time. -/
structure Origin where
  place : Place
  fields : Fields
  childIds : List String

def Origin.same (a b : Origin) : Bool :=
  a.place == b.place && a.fields.same b.fields && a.childIds == b.childIds

/-! ## Nodes -/

structure Node where
  id : String
  fields : Fields
  component : Option ComponentInfo := none
  origin : Option Origin := none
  children : List Node := []

namespace Node

/-- A node without children that has a type only. -/
def ofType (id type : String) : Node := { id, fields := { type } }

/-- The root of an empty page. -/
def root : Node := ofType rootId rootType

instance : Inhabited Node := ⟨root⟩

def type (n : Node) : String := n.fields.type

def isRoot (n : Node) : Bool := n.id == rootId

def isText (n : Node) : Bool := n.type == textType

def isExpression (n : Node) : Bool := n.type == expressionType

/-- Text runs and raw expressions hold no children. -/
def isLeaf (n : Node) : Bool := n.isText || n.isExpression

/-- What the node stands for, if it is a component. -/
def component? (n : Node) : Option ComponentInfo := n.component.filter (·.isComponent)

def isComponent (n : Node) : Bool := n.component?.isSome

/-- The text, unless there is none or it is empty. -/
def text? (n : Node) : Option String := n.fields.text.filter (· != "")

def childIds (n : Node) : List String := n.children.map (·.id)

/-! ## Walks -/

mutual

/-- The number of nodes, this one included. -/
def size : Node → Nat
  | ⟨_, _, _, _, children⟩ => 1 + sizeAll children

def sizeAll : List Node → Nat
  | [] => 0
  | n :: ns => n.size + sizeAll ns

end

mutual

/-- The ids of the node and of all nodes below it, parents before children. -/
def ids : Node → List String
  | ⟨id, _, _, _, children⟩ => id :: idsAll children

def idsAll : List Node → List String
  | [] => []
  | n :: ns => n.ids ++ idsAll ns

end

mutual

/-- The pairs of a child's id and its parent's id, a node's own children first. -/
def edges : Node → List (String × String)
  | ⟨id, _, _, _, children⟩ => children.map (fun c => (c.id, id)) ++ edgesAll children

def edgesAll : List Node → List (String × String)
  | [] => []
  | n :: ns => n.edges ++ edgesAll ns

end

mutual

/-- The first node with that id, parents before children. -/
def find? (id : String) (n : Node) : Option Node :=
  match n with
  | ⟨own, fields, component, origin, children⟩ =>
    if own = id then some ⟨own, fields, component, origin, children⟩ else findIn? id children

def findIn? (id : String) : List Node → Option Node
  | [] => none
  | n :: ns => (n.find? id).or (findIn? id ns)

end

mutual

/-- Changes the first node with that id; `none` when there is none. -/
def modify? (id : String) (f : Node → Node) (n : Node) : Option Node :=
  match n with
  | ⟨own, fields, component, origin, children⟩ =>
    if own = id then some (f ⟨own, fields, component, origin, children⟩)
    else (modifyIn? id f children).map fun cs => ⟨own, fields, component, origin, cs⟩

def modifyIn? (id : String) (f : Node → Node) : List Node → Option (List Node)
  | [] => none
  | n :: ns =>
    match modify? id f n with
    | some n => some (n :: ns)
    | none => (modifyIn? id f ns).map (n :: ·)

end

/-- Changes the first node with that id, if there is one. -/
def modify (id : String) (f : Node → Node) (n : Node) : Node := (n.modify? id f).getD n

mutual

/-- The same nodes without any memory of a text. -/
def forget : Node → Node
  | ⟨id, fields, component, _, children⟩ => ⟨id, fields, component, none, forgetAll children⟩

def forgetAll : List Node → List Node
  | [] => []
  | n :: ns => n.forget :: forgetAll ns

end

mutual

/-- Equality of all fields, origins and children. -/
def same : Node → Node → Bool
  | ⟨id, fields, component, origin, children⟩, ⟨id', fields', component', origin', children'⟩ =>
    id == id' && fields.same fields' && component == component'
      && (match origin, origin' with
        | none, none => true
        | some o, some o' => o.same o'
        | _, _ => false)
      && sameAll children children'

def sameAll : List Node → List Node → Bool
  | [], [] => true
  | n :: ns, m :: ms => n.same m && sameAll ns ms
  | _, _ => false

end

/-! ## What has changed -/

/-- Whether class, style, attributes or animation differ from what was read; always true of a node
that was not read. -/
def propsChanged (n : Node) : Bool :=
  match n.origin with
  | some o => !o.fields.sameProps n.fields
  | none => true

def textChanged (n : Node) : Bool :=
  match n.origin with
  | some o => o.fields.text != n.fields.text
  | none => true

/-- Whether children came, went or changed places. -/
def childrenChanged (n : Node) : Bool :=
  match n.origin with
  | some o => o.childIds != n.childIds
  | none => true

mutual

/-- For each node, parents first: its id and whether its props, its text and its children have
changed. -/
def changes (n : Node) : List (String × Bool × Bool × Bool) :=
  match n with
  | ⟨id, fields, component, origin, children⟩ =>
    let n : Node := ⟨id, fields, component, origin, children⟩
    (id, n.propsChanged, n.textChanged, n.childrenChanged) :: changesAll children

def changesAll : List Node → List (String × Bool × Bool × Bool)
  | [] => []
  | n :: ns => n.changes ++ changesAll ns

end

/-- Takes over the fields and the component of another node. -/
def assign (n other : Node) : Node :=
  { n with fields := other.fields, component := other.component }

/-- Remembers a place in a text together with the present fields and children. -/
def withPlace (n : Node) (place : Place) : Node :=
  { n with origin := some ⟨place, n.fields, n.childIds⟩ }

end Node

end PageEditor
