import PageEditor.Node.Animation
import PageEditor.OrderedMap

/-!
# View nodes

What a page looks like when it is rendered: elements, groups, texts, and what stands for a component
that is still being compiled, that failed, or that nobody knows.
-/
set_option autoImplicit false

namespace PageEditor

inductive VNode
  | element (tag : String) (nodeId : Option String) (attributes styles : OrderedMap String)
      (children : List VNode) (animation : Option AnimationDescriptor) (remountKey : UInt64)
  | fragment (children : List VNode)
  | text (content : String)
  | loading (nodeId : String)
  | error (nodeId message : String)
  | unknown (nodeId name : String)

namespace VNode

instance : Inhabited VNode := ⟨text ""⟩

/-! ## Parts -/

def children : VNode → List VNode
  | element _ _ _ _ cs _ _ => cs
  | fragment cs => cs
  | _ => []

/-- The node that a view node stands for. -/
def nodeId? : VNode → Option String
  | element _ id _ _ _ _ _ => id
  | loading id => some id
  | error id _ => some id
  | unknown id _ => some id
  | fragment _ => none
  | text _ => none

/-- Lets an element play an animation; a new key starts it again. -/
def animate (d : AnimationDescriptor) (key : UInt64) : VNode → VNode
  | element tag id attributes styles cs _ _ => element tag id attributes styles cs (some d) key
  | v => v

/-! ## Walks -/

mutual

/-- The first view node that stands for a node, parents before children. -/
def find? (id : String) (v : VNode) : Option VNode :=
  if v.nodeId? = some id then some v
  else
    match v with
    | element _ _ _ _ cs _ _ => findIn? id cs
    | fragment cs => findIn? id cs
    | _ => none

def findIn? (id : String) : List VNode → Option VNode
  | [] => none
  | v :: vs => (v.find? id).or (findIn? id vs)

end

mutual

/-- The ids of the nodes that are shown, parents before children. -/
def nodeIds (v : VNode) : List String :=
  v.nodeId?.toList ++
    match v with
    | element _ _ _ _ cs _ _ => nodeIdsIn cs
    | fragment cs => nodeIdsIn cs
    | _ => []

def nodeIdsIn : List VNode → List String
  | [] => []
  | v :: vs => v.nodeIds ++ nodeIdsIn vs

end

mutual

/-- How many view nodes have a property. -/
def count (p : VNode → Bool) (v : VNode) : Nat :=
  (if p v then 1 else 0) +
    match v with
    | element _ _ _ _ cs _ _ => countIn p cs
    | fragment cs => countIn p cs
    | _ => 0

def countIn (p : VNode → Bool) : List VNode → Nat
  | [] => 0
  | v :: vs => v.count p + countIn p vs

end

def isElement : VNode → Bool
  | element .. => true
  | _ => false

def isFragment : VNode → Bool
  | fragment _ => true
  | _ => false

def isText : VNode → Bool
  | text _ => true
  | _ => false

def isLoading : VNode → Bool
  | loading _ => true
  | _ => false

def isError : VNode → Bool
  | error .. => true
  | _ => false

def isUnknown : VNode → Bool
  | unknown .. => true
  | _ => false

end VNode

end PageEditor
