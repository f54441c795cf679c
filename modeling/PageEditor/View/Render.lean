import PageEditor.Component.Queue
import PageEditor.View.Styles

/-!
# Rendering

The view of a tree. Elements become elements. A component that the environment knows directly is
made at once, and a compiled one by its plan; one that is not compiled yet is queued and shown as
loading. What goes wrong with a component stays at its place.
-/
set_option autoImplicit false

namespace PageEditor

/-! ## Components -/

/-- What rendering adds to: the queue and the styles in use. -/
structure RenderState where
  queue : Queue
  styles : Styles := {}

namespace RenderState

def record (s : RenderState) (d : Descriptor) : RenderState :=
  { s with styles := s.styles.record d }

def enqueue (s : RenderState) (n : Node) : RenderState :=
  { s with queue := (s.queue.enqueue (.ofNode n)).2 }

mutual

/-- Takes note of the components of a plan. -/
def recordPlan (s : RenderState) : Plan → RenderState
  | .component d _ inner => recordPlans (s.record d) inner
  | .primitive _ _ inner => recordPlans s inner
  | _ => s

def recordPlans (s : RenderState) : List Plan → RenderState
  | [] => s
  | p :: ps => recordPlans (s.recordPlan p) ps

end

end RenderState

/-- What rendering reads: the components that may be used, and the compiled ones. -/
structure Resolver where
  env : Environment
  cache : Cache

namespace Resolver

/-- The view of a component by its compiled plan, which is queued when there is none. -/
def compiled (r : Resolver) (s : RenderState) (n : Node) (children : List VNode) :
    VNode × RenderState :=
  match r.cache.get? n.cacheKey with
  | some (.ok plan) => (plan.execute n.id children, s.recordPlan plan)
  | some (.error e) => (.error n.id e.message, s)
  | none => (.loading n.id, s.enqueue n)

/-- The view of a component with its rendered children. A tag with a dot is never made directly. -/
def resolve (r : Resolver) (s : RenderState) (n : Node) (children : List VNode) :
    VNode × RenderState :=
  match n.component? with
  | none => (.unknown n.id n.type, s)
  | some c =>
    match r.env.direct? c with
    | some d =>
      if n.type.toList.contains '.' then r.compiled s n children
      else (d.instantiate (.ofNode n) children, s.record d)
    | none => if c.package = "" then (.unknown n.id n.type, s) else r.compiled s n children

end Resolver

/-! ## Nodes -/

/-- The replay counters of nodes. -/
abbrev Previews := OrderedMap AnimationPreview

/-- Lets a node's view play the node's animation, if it is on. -/
def Node.animated (previews : Previews) (n : Node) (v : VNode) : VNode :=
  match n.fields.animation.bind Animation.descriptor? with
  | some d => v.animate d (((previews.get? n.id).map (·.count)).getD 0)
  | none => v

/-- The view of an element that is no component. -/
def Node.primitive (n : Node) (children : List VNode) : VNode :=
  let p := Props.ofNode n
  let attributes : OrderedMap String :=
    if p.className = "" then .empty else OrderedMap.empty.insert "class" p.className
  .element n.type (some n.id) (attributes.insertAll (literalEntries p.attributes))
    (.ofList (literalEntries p.style)) (p.textNodes ++ children) none 0

namespace Resolver

mutual

/-- The view of a node. -/
def node (r : Resolver) (previews : Previews) (s : RenderState) : Node → VNode × RenderState
  | ⟨id, fields, component, origin, children⟩ =>
    let n : Node := ⟨id, fields, component, origin, children⟩
    if fields.type = textType then (.text (fields.text.getD ""), s)
    else if fields.type = expressionType then (Plan.shown (fields.text.getD ""), s)
    else
      let (vs, s) := nodes r previews s children
      let (v, s) := if n.isComponent then r.resolve s n vs else (n.primitive vs, s)
      (n.animated previews v, s)

def nodes (r : Resolver) (previews : Previews) (s : RenderState) :
    List Node → List VNode × RenderState
  | [] => ([], s)
  | n :: ns =>
    let (v, s) := node r previews s n
    let (vs, s) := nodes r previews s ns
    (v :: vs, s)

end

end Resolver

/-! ## Trees -/

/-- The view of a page: its top-level nodes and the styles in use. -/
structure View where
  nodes : List VNode
  styles : List FamilyStyle

namespace View

def find? (v : View) (id : String) : Option VNode := VNode.findIn? id v.nodes

def count (v : View) (p : VNode → Bool) : Nat := VNode.countIn p v.nodes

end View

/-- The view of a tree, and the queue with the components that are missing. -/
def Tree.render (t : Tree) (r : Resolver) (previews : Previews) (queue : Queue) : View × Queue :=
  let (vs, s) := r.nodes previews { queue } t.root.children
  (⟨vs, s.styles.groups⟩, s.queue)

end PageEditor
