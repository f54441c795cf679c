import PageEditor.Component.Environment
import PageEditor.Markup.MissingImports
import PageEditor.Markup.Printer

/-!
# Plans

A component that is not made at once is compiled: a snippet of markup is written that imports it and
uses it, with a slot where its children go; the snippet is read; and what was read is turned into a
plan that names components of the environment only. A plan is executed whenever the component is
shown, with the children as they are then.
-/
set_option autoImplicit false

namespace PageEditor

/-! ## Plans -/

inductive Plan
  | primitive (tag : String) (props : Props) (children : List Plan)
  | component (descriptor : Descriptor) (props : Props) (children : List Plan)
  | text (content : String)
  | expression (inner : String)
  | slot

namespace Plan

/-- An expression as it is shown. -/
def shown (inner : String) : VNode := .text (Value.braced inner.toList)

mutual

/-- Executes a plan for the node `id`. The first slot takes the children; returns what is left for
later slots. -/
def run (id : String) (children : List VNode) : Plan → VNode × List VNode
  | primitive tag props inner =>
    let (vs, left) := runAll id children inner
    let attributes : OrderedMap String :=
      if props.className = "" then .empty else OrderedMap.empty.insert "class" props.className
    (.element tag (some id) (attributes.insertAll (literalEntries props.attributes)) props.style
      vs none 0, left)
  | component descriptor props inner =>
    let (vs, left) := runAll id children inner
    (descriptor.instantiate { props with nodeId := id } vs, left)
  | text content => (.text content, children)
  | expression inner => (shown inner, children)
  | slot => (.fragment children, [])

/-- Executes plans in their order; a slot's children come in its place, without a group. -/
def runAll (id : String) (children : List VNode) : List Plan → List VNode × List VNode
  | [] => ([], children)
  | p :: ps =>
    match p with
    | slot =>
      let (vs, left) := runAll id [] ps
      (children ++ vs, left)
    | p =>
      let (v, left) := run id children p
      let (vs, left) := runAll id left ps
      (v :: vs, left)

end

/-- The view of the node `id` with its rendered children. -/
def execute (p : Plan) (id : String) (children : List VNode) : VNode := (p.run id children).1

end Plan

/-! ## Snippets -/

/-- The expression that stands for the children. -/
def slotName : String := "children"

/-- The import statement of a snippet, with its line feed; a component without package has none. -/
def Node.snippetImport (n : Node) : List Char :=
  match n.component with
  | none => []
  | some c =>
    if c.package = "" then []
    else
      let need : Needed :=
        ⟨c.package, if c.kind = .named then baseName c.imported else "", baseName n.type, c.kind⟩
      ((Needed.lines [need]).map fun l => l.toList ++ ['\n']).flatten

/-- The node without its memory of a text and with a slot in place of its children. -/
def Node.template (n : Node) : Node :=
  let slot : Node := { id := "slot", fields := { type := expressionType, text := some slotName } }
  { n with origin := none, children := if n.children.isEmpty then [] else [slot] }

/-- The snippet that stands for a component. -/
def Node.snippet (n : Node) : String :=
  String.ofList (n.snippetImport ++ n.template.markup defaultIndent 0)

/-! ## Compiling -/

namespace Plan

mutual

/-- The plan of a node that was read from a snippet. -/
def ofNode (env : Environment) : Node → Except CompileError Plan
  | ⟨id, fields, info, origin, children⟩ =>
    let n : Node := ⟨id, fields, info, origin, children⟩
    if fields.type = textType then .ok (text (fields.text.getD ""))
    else if fields.type = expressionType then
      let inner := fields.text.getD ""
      .ok (if Text.trim inner.toList = slotName.toList then slot else expression inner)
    else
      match ofNodes env children with
      | .error e => .error e
      | .ok plans =>
        match n.component? with
        | some c =>
          match env.resolve c with
          | .error e => .error e
          | .ok d => .ok (component d (.ofNode n) plans)
        | none =>
          if isHtmlTag fields.type then
            let props : Props := { Props.ofNode n with style := .ofList (literalEntries fields.style) }
            .ok (primitive fields.type props ((n.text?.map text).toList ++ plans))
          else .error (.unknownTag fields.type)

def ofNodes (env : Environment) : List Node → Except CompileError (List Plan)
  | [] => .ok []
  | n :: ns =>
    match ofNode env n with
    | .error e => .error e
    | .ok p =>
      match ofNodes env ns with
      | .error e => .error e
      | .ok ps => .ok (p :: ps)

end

end Plan

/-- Compiles a component. -/
def Node.compile (env : Environment) (n : Node) : Except CompileError Plan :=
  match Page.read n.snippet with
  | .error e => .error (.unparsable e)
  | .ok page =>
    match page.tree.root.children with
    | [] => .error .emptySnippet
    | element :: _ => Plan.ofNode env element

end PageEditor
