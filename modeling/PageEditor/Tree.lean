import PageEditor.Hierarchy
import PageEditor.Node.Basic
import PageEditor.Node.Ids

/-!
# Trees

A page's nodes under their root, with an index of their parents and the source of ids for new ones.
A structural edit (`Tree.edit`) makes the index anew; a change of the fields of one node
(`Tree.modify`) leaves it alone. `Tree.WellFormed` is what holds of every tree that was read from a
text: the root has the root's id and type, no id comes twice, and the index is that of the nodes.
-/
set_option autoImplicit false

namespace PageEditor

/-! ## Trees -/

structure Tree where
  root : Node
  /-- The pairs of a child's id and its parent's id, as of the last structural edit. -/
  parents : List (String × String)
  ids : IdSource

inductive TreeError
  | duplicateId (id : String)
  | invalidRoot (id : String)
  deriving DecidableEq, Repr

def TreeError.message : TreeError → String
  | duplicateId id => "Duplicate node id: " ++ id
  | invalidRoot id => "Root node must have id 'root', found '" ++ id ++ "'"

/-- The first entry that came before. -/
def firstRepeat? (seen : List String) : List String → Option String
  | [] => none
  | x :: xs => if x ∈ seen then some x else firstRepeat? (x :: seen) xs

namespace Tree

/-- The key from which ids are made when none is given. -/
def defaultKey : String := "document"

/-- The tree of the nodes of a root. -/
def around (root : Node) (ids : IdSource) : Tree := ⟨root, root.edges, ids⟩

def empty : Tree := around .root (.ofKey defaultKey)

instance : Inhabited Tree := ⟨empty⟩

/-- Puts a tree around a root, if it is one and no id comes twice. -/
def ofRoot (root : Node) (ids : IdSource) : Except TreeError Tree :=
  if root.id ≠ rootId then .error (.invalidRoot root.id)
  else
    match firstRepeat? [] root.ids with
    | some id => .error (.duplicateId id)
    | none => .ok (around root ids)

/-- The root has the root's id and type, no id comes twice, and the index holds the edges. -/
structure WellFormed (t : Tree) : Prop where
  root_id : t.root.id = rootId
  root_type : t.root.type = rootType
  nodup : t.root.ids.Nodup
  parents_eq : t.parents = t.root.edges

/-- Equality of the nodes; the indexes and the sources of ids may differ. -/
def same (t u : Tree) : Bool := t.root.same u.root

/-! ## Looking up -/

def find? (t : Tree) (id : String) : Option Node := t.root.find? id

/-- The id of the parent, by the last entry of the index for `id`. -/
def parentId? (t : Tree) (id : String) : Option String := t.parents.reverse.lookup id

def contains (t : Tree) (id : String) : Bool := id == rootId || (t.parentId? id).isSome

def parent? (t : Tree) (id : String) : Option Node := (t.parentId? id).bind t.find?

/-- The place of a node among its parent's children. -/
def indexInParent? (t : Tree) (id : String) : Option Nat :=
  (t.parent? id).bind fun p => p.childIds.findIdx? (· == id)

/-- The ids from `id` upwards, at most `fuel` of them. -/
def upwards (t : Tree) (id : String) : Nat → List String
  | 0 => []
  | fuel + 1 =>
    id :: match t.parentId? id with
      | some p => t.upwards p fuel
      | none => []

/-- The nodes from the root down to `id`; none when it is not in the tree. -/
def path (t : Tree) (id : String) : List Node :=
  if t.contains id then (t.upwards id (t.parents.length + 1)).reverse.filterMap t.find? else []

def allIds (t : Tree) : List String := t.root.ids

def size (t : Tree) : Nat := t.root.size

def idsAreUnique (t : Tree) : Bool := (firstRepeat? [] t.allIds).isNone

/-! ## The hierarchy of a tree -/

def children (t : Tree) (id : String) : List String :=
  match t.find? id with
  | some n => n.childIds
  | none => []

end Tree

namespace Node

theorem id_mem_ids (n : Node) : n.id ∈ n.ids := by
  cases n
  simp [ids]

theorem childIds_subset_idsAll (ns : List Node) : ∀ c ∈ ns.map (·.id), c ∈ idsAll ns := by
  induction ns with
  | nil => intro c hc; simp at hc
  | cons n ns ih =>
    intro c hc
    simp only [List.map_cons, List.mem_cons] at hc
    simp only [idsAll, List.mem_append]
    rcases hc with rfl | hc
    · exact .inl n.id_mem_ids
    · exact .inr (ih c hc)

mutual

theorem childIds_mem_ids {id c : String} {m : Node} : (n : Node) → n.find? id = some m →
    c ∈ m.childIds → c ∈ n.ids
  | ⟨own, fields, component, origin, children⟩, h, hc => by
    simp only [find?] at h
    simp only [ids, List.mem_cons]
    split at h
    · cases h
      exact .inr (childIds_subset_idsAll children c hc)
    · exact .inr (childIds_mem_idsAll children h hc)

theorem childIds_mem_idsAll {id c : String} {m : Node} : (ns : List Node) →
    findIn? id ns = some m → c ∈ m.childIds → c ∈ idsAll ns
  | [], h, _ => by simp [findIn?] at h
  | n :: ns, h, hc => by
    simp only [findIn?, Option.or_eq_some_iff] at h
    simp only [idsAll, List.mem_append]
    rcases h with h | ⟨_, h⟩
    · exact .inl (childIds_mem_ids n h hc)
    · exact .inr (childIds_mem_idsAll ns h hc)

end

end Node

namespace Tree

def hierarchy (t : Tree) : Hierarchy String where
  entries := t.allIds
  children := t.children
  children_mem := by
    intro id c hc
    simp only [children] at hc
    split at hc
    · rename_i n hn
      exact Node.childIds_mem_ids t.root hn hc
    · cases hc

def isDescendant (t : Tree) (ancestor candidate : String) : Bool :=
  t.hierarchy.isDescendant ancestor candidate

/-! ## Changing -/

/-- Makes the index of parents anew. -/
def reindex (t : Tree) : Tree := { t with parents := t.root.edges }

/-- Changes the nodes and then makes the index anew. -/
def edit (t : Tree) (f : Node → Node) : Tree := { t with root := f t.root }.reindex

/-- Changes the first node with that id, if there is one; the index stays as it is. -/
def modify (t : Tree) (id : String) (f : Node → Node) : Tree :=
  { t with root := t.root.modify id f }

/-- Changes the first node with that id, if there is one, and then makes the index anew. -/
def editNode (t : Tree) (id : String) (f : Node → Node) : Tree := t.edit (·.modify id f)

/-- The ids that new nodes must not take. -/
def takenIds (t : Tree) : List String := rootId :: t.parents.map (·.1)

/-- An id that no node has, and the tree whose next ids come behind it. -/
def freshId (t : Tree) : String × Tree :=
  let (id, ids) := t.ids.fresh t.takenIds
  (id, { t with ids })

end Tree

end PageEditor
