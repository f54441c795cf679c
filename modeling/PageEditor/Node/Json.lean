import PageEditor.Json.Decode
import PageEditor.Node.Basic

/-!
# Nodes as JSON

How nodes, components and animations are written as JSON values and read from them. Empty fields
are left out, and what is left out is read as empty. Origins are never written.
-/
set_option autoImplicit false

namespace PageEditor

open Json (member? required? optional? option?)

/-! ## Components -/

namespace ImportKind

def all : List ImportKind := [named, default, whole]

def name : ImportKind → String
  | named => "named"
  | default => "default"
  | whole => "namespace"

def ofName? (s : String) : Option ImportKind := all.find? (·.name == s)

theorem ofName?_name (k : ImportKind) : ofName? k.name = some k := by
  cases k <;> decide

end ImportKind

namespace ComponentInfo

def toJson (c : ComponentInfo) : Json :=
  .object
    [("isComponent", .bool c.isComponent), ("packageName", .string c.package),
      ("importName", .string c.imported), ("importType", .string c.kind.name)]

def ofJson? (room : Nat) (whole : Bool) (v : Json) : Option ComponentInfo := do
  guard (0 < room)
  match ← v.fields? ["isComponent", "packageName", "importName", "importType"] with
  | [isComponent, package, imported, kind] =>
    return {
      isComponent := ← required? Json.bool? isComponent
      package := ← required? Json.string? package
      imported := ← required? Json.string? imported
      kind := ← required? (fun v => (v.caseName? (room - 1) whole).bind ImportKind.ofName?) kind }
  | _ => none

end ComponentInfo

/-! ## Animations -/

namespace Animation

def number (x : Float) : Json := .number (.double x)

def toJson (a : Animation) : Json :=
  .object <|
    [("enabled", .bool a.enabled), ("type", .string a.kind.name),
      ("trigger", .string a.trigger.name), ("duration", number a.duration),
      ("delay", number a.delay), ("repeat", .ofNat a.repeats.toNat), ("ease", .string a.ease)]
    ++ member? "direction" (fun d => .string d.name) a.direction
    ++ member? "distance" number a.distance
    ++ member? "angle" number a.angle
    ++ member? "intensity" number a.intensity

def ofJson? (room : Nat) (whole : Bool) (v : Json) : Option Animation := do
  guard (0 < room)
  let case := fun {α : Type} (f : String → Option α) (v : Json) =>
    (v.caseName? (room - 1) whole).bind f
  match ← v.fields? ["enabled", "type", "trigger", "duration", "delay", "repeat", "ease",
      "direction", "distance", "angle", "intensity"] with
  | [enabled, kind, trigger, duration, delay, repeats, ease, direction, distance, angle,
      intensity] =>
    return {
      enabled := ← required? Json.bool? enabled
      kind := ← required? (case AnimationKind.ofName?) kind
      trigger := ← required? (case AnimationTrigger.ofName?) trigger
      duration := ← required? Json.double? duration
      delay := ← optional? 0.0 Json.double? delay
      repeats := ← optional? 0 Json.uint32? repeats
      ease := ← optional? "easeOut" Json.string? ease
      direction := ← optional? none (option? (case Direction.ofName?)) direction
      distance := ← optional? none (option? Json.double?) distance
      angle := ← optional? none (option? Json.double?) angle
      intensity := ← optional? none (option? Json.double?) intensity }
  | _ => none

end Animation

namespace AnimationParams

def toJson : AnimationParams → Json
  | fade => .object [("kind", .string "fade")]
  | slide direction distance =>
    .object [("kind", .string "slide"), ("direction", .string direction.name),
      ("distance", Animation.number distance)]
  | scale intensity =>
    .object [("kind", .string "scale"), ("intensity", Animation.number intensity)]
  | rotate angle => .object [("kind", .string "rotate"), ("angle", Animation.number angle)]
  | bounce distance =>
    .object [("kind", .string "bounce"), ("distance", Animation.number distance)]
  | pulse intensity =>
    .object [("kind", .string "pulse"), ("intensity", Animation.number intensity)]
  | shake intensity =>
    .object [("kind", .string "shake"), ("intensity", Animation.number intensity)]

end AnimationParams

def AnimationDescriptor.toJson (d : AnimationDescriptor) : Json :=
  .object
    [("trigger", .string d.trigger.name),
      ("timing", .object
        [("duration", Animation.number d.timing.duration), ("delay", Animation.number d.timing.delay),
          ("repeat", .ofNat d.timing.repeats.toNat), ("ease", .string d.timing.ease)]),
      ("params", d.params.toJson)]

/-! ## Nodes -/

namespace Node

/-- A member that is written only when it is not empty. -/
def mapMember (key : String) (m : OrderedMap String) : List (String × Json) :=
  if m.isEmpty then [] else [(key, Json.ofStringMap m)]

mutual

def toJson : Node → Json
  | ⟨id, fields, component, _, children⟩ =>
    .object <|
      [("id", .string id), ("type", .string fields.type)]
      ++ (if fields.className = "" then [] else [("className", .string fields.className)])
      ++ mapMember "style" fields.style
      ++ mapMember "attributes" fields.attributes
      ++ member? "textContent" .string fields.text
      ++ [("children", .array (allToJson children))]
      ++ member? "componentInfo" ComponentInfo.toJson component
      ++ member? "animations" Animation.toJson fields.animation

def allToJson : List Node → List Json
  | [] => []
  | n :: ns => n.toJson :: allToJson ns

end

/-- Reads everything but the children, for which it returns their value. -/
def headOfJson? (room : Nat) (whole : Bool) (v : Json) : Option (Node × Option Json) := do
  match ← v.fields? ["id", "type", "className", "style", "attributes", "textContent", "children",
      "componentInfo", "animations"] with
  | [id, type, className, style, attributes, text, children, component, animation] =>
    let fields : Fields := {
      type := ← required? Json.string? type
      className := ← optional? "" Json.string? className
      style := ← optional? .empty (Json.stringMap? room) style
      attributes := ← optional? .empty (Json.stringMap? room) attributes
      text := ← optional? none (option? Json.string?) text
      animation := ← optional? none (option? (Animation.ofJson? room whole)) animation }
    let node : Node := {
      id := ← required? Json.string? id
      fields
      component := ← optional? none (option? (ComponentInfo.ofJson? room whole)) component }
    return (node, children)
  | _ => none

/-- Reads a node; `room` is how many levels of nesting may still be opened. -/
def ofJson? (whole : Bool) : Nat → Json → Option Node
  | 0, _ => none
  | 1, v => do
    match ← headOfJson? 0 whole v with
    | (node, none) => return node
    | _ => none
  | room + 2, v => do
    match ← headOfJson? (room + 1) whole v with
    | (node, none) => return node
    | (node, some (.array items)) =>
      return { node with children := ← items.mapM (ofJson? whole room) }
    | _ => none

/-- Reads a node that is a text of its own. -/
def decode? (v : Json) : Option Node := ofJson? false Json.depthLimit v

end Node

end PageEditor
