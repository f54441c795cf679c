import PageEditor.Node.Json
import PageEditor.View.Render

/-!
# Views as JSON

How views are written as JSON values and read from them. A view node is an object whose member
`type` names the case, or an array of the case and its fields. What lies within a view node has been
taken in as a whole.
-/
set_option autoImplicit false

namespace PageEditor

open Json (member? required? optional? option?)

/-! ## Animations -/

namespace AnimationParams

def ofJson? (v : Json) : Option AnimationParams := do
  let (kind, v) ← v.tagged? true "kind" (AnimationKind.all.map (·.name))
  let number := fun (name : String) => do
    match ← v.fields? [name] with
    | [x] => required? Json.double? x
    | _ => none
  match ← AnimationKind.ofName? kind with
  | .fade =>
    match v with
    | .array (_ :: _) => none
    | _ => return .fade
  | .slide =>
    match ← v.fields? ["direction", "distance"] with
    | [direction, distance] =>
      return .slide (← required? (Json.case? Direction.ofName?) direction)
        (← required? Json.double? distance)
    | _ => none
  | .scale => return .scale (← number "intensity")
  | .rotate => return .rotate (← number "angle")
  | .bounce => return .bounce (← number "distance")
  | .pulse => return .pulse (← number "intensity")
  | .shake => return .shake (← number "intensity")

end AnimationParams

namespace AnimationDescriptor

def timing? (v : Json) : Option Timing := do
  match ← v.fields? ["duration", "delay", "repeat", "ease"] with
  | [duration, delay, repeats, ease] =>
    return ⟨← required? Json.double? duration, ← required? Json.double? delay,
      ← required? Json.uint32? repeats, ← required? Json.string? ease⟩
  | _ => none

def ofJson? (v : Json) : Option AnimationDescriptor := do
  match ← v.fields? ["trigger", "timing", "params"] with
  | [trigger, timing, params] =>
    return ⟨← required? (Json.case? AnimationTrigger.ofName?) trigger,
      ← required? timing? timing, ← required? AnimationParams.ofJson? params⟩
  | _ => none

end AnimationDescriptor

/-! ## View nodes -/

namespace VNode

mutual

def toJson : VNode → Json
  | element tag nodeId attributes styles children animation key =>
    .object <|
      [("type", .string "Element"), ("tag", .string tag)]
      ++ member? "nodeId" .string nodeId
      ++ [("attributes", Json.ofStringMap attributes), ("styles", Json.ofStringMap styles),
        ("children", .array (allToJson children))]
      ++ member? "animation" AnimationDescriptor.toJson animation
      ++ (if key = 0 then [] else [("remountKey", .ofNat key.toNat)])
  | fragment children =>
    .object [("type", .string "Fragment"), ("children", .array (allToJson children))]
  | text content => .object [("type", .string "Text"), ("content", .string content)]
  | loading nodeId => .object [("type", .string "Loading"), ("nodeId", .string nodeId)]
  | error nodeId message =>
    .object [("type", .string "Error"), ("nodeId", .string nodeId), ("message", .string message)]
  | unknown nodeId name =>
    .object [("type", .string "Unknown"), ("nodeId", .string nodeId), ("name", .string name)]

def allToJson : List VNode → List Json
  | [] => []
  | v :: vs => v.toJson :: allToJson vs

end

/-- The cases in their order. -/
def caseNames : List String := ["Element", "Fragment", "Text", "Loading", "Error", "Unknown"]

/-- Reads a view node of at most so many levels. -/
def ofJson? (whole : Bool) : Nat → Json → Option VNode
  | 0, _ => none
  | room + 1, v => do
    let (case, v) ← v.tagged? whole "type" caseNames
    let string := required? Json.string?
    let nodes := required? fun v =>
      match v with
      | .array items => items.mapM (ofJson? true room)
      | _ => none
    if case = "Element" then
      match ← v.fields? ["tag", "nodeId", "attributes", "styles", "children", "animation",
          "remountKey"] 6 with
      | [tag, nodeId, attributes, styles, children, animation, key] =>
        let map := required? (Json.stringMap? Json.depthLimit)
        return .element (← string tag) (← optional? none (option? Json.string?) nodeId)
          (← map attributes) (← map styles) (← nodes children)
          (← optional? none (option? AnimationDescriptor.ofJson?) animation)
          (← optional? 0 Json.uint64? key)
      | _ => none
    else if case = "Fragment" then
      match ← v.fields? ["children"] with
      | [children] => return .fragment (← nodes children)
      | _ => none
    else if case = "Text" then
      match ← v.fields? ["content"] with
      | [content] => return .text (← string content)
      | _ => none
    else if case = "Loading" then
      match ← v.fields? ["nodeId"] with
      | [nodeId] => return .loading (← string nodeId)
      | _ => none
    else if case = "Error" then
      match ← v.fields? ["nodeId", "message"] with
      | [nodeId, message] => return .error (← string nodeId) (← string message)
      | _ => none
    else if case = "Unknown" then
      match ← v.fields? ["nodeId", "name"] with
      | [nodeId, name] => return .unknown (← string nodeId) (← string name)
      | _ => none
    else none

end VNode

/-! ## Views -/

def FamilyStyle.toJson (s : FamilyStyle) : Json :=
  .object
    [("family", .string s.family.name), ("classTokens", .array (s.classTokens.map .string))]

def View.toJson (v : View) : Json :=
  .object
    [("nodes", .array (VNode.allToJson v.nodes)), ("styles", .array (v.styles.map (·.toJson)))]

end PageEditor
