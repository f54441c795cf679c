import PageEditor.Edit.Structure
import PageEditor.Node.Json

/-!
# Commands

A structural edit as a value: what a user asked for, before it is known whether it can be done.
Commands are written as JSON objects whose member `command` names the case, and are read from them
or from arrays that hold the case and then the fields.
-/
set_option autoImplicit false

namespace PageEditor

/-! ## Commands -/

inductive Command
  | add (parentId type : String) (index : Option UInt64) (text : Option String)
      (attributes : Option (OrderedMap String))
  | duplicate (id : String)
  | delete (id : String)
  | move (source target : String) (position : DropPosition)
  | update (node : Node)

/-- What a command has done. -/
inductive EditResult
  | added (id : String)
  | duplicated (ids : List String)
  | deleted (id : String)
  | moved (id parentId : String)
  | updated (id : String)
  deriving DecidableEq, Repr

namespace Command

/-- A short text for menus and logs. -/
def describe : Command → String
  | add _ type _ _ _ => "Add " ++ type
  | duplicate id => "Duplicate " ++ id
  | delete id => "Delete " ++ id
  | move source _ position => "Move " ++ source ++ " " ++ position.name
  | update node => "Update " ++ node.id

/-- Carries a command out, or says why it cannot be done. -/
def apply (d : Defaults) (t : Tree) : Command → Except EditError EditResult × Tree
  | add parentId type index text attributes =>
    let (r, t) := t.add d parentId type (index.map (·.toNat)) text
      ((attributes.map (·.entries)).getD [])
    (r.map .added, t)
  | duplicate id =>
    let (r, t) := t.duplicate id
    (r.map .duplicated, t)
  | delete id =>
    let (r, t) := t.delete id
    (r.map fun _ => .deleted id, t)
  | move source target position =>
    let (r, t) := t.move source target position
    (r.map (.moved source), t)
  | update node =>
    let (r, t) := t.update node
    (r.map fun _ => .updated node.id, t)

/-! ## JSON -/

open Json (member? required? optional? option?)

def toJson : Command → Json
  | add parentId type index text attributes =>
    .object <|
      [("command", .string "add"), ("parentId", .string parentId), ("type", .string type)]
      ++ member? "position" (fun i => .ofNat i.toNat) index
      ++ member? "text" .string text
      ++ member? "attributes" Json.ofStringMap attributes
  | duplicate id => .object [("command", .string "duplicate"), ("id", .string id)]
  | delete id => .object [("command", .string "delete"), ("id", .string id)]
  | move source target position =>
    .object
      [("command", .string "move"), ("sourceId", .string source), ("targetId", .string target),
        ("position", .string position.name)]
  | update node => .object [("command", .string "update"), ("node", node.toJson)]

/-- The cases in their order. -/
def caseNames : List String := ["add", "duplicate", "delete", "move", "update"]

/-- The fields of a case. -/
def ofFields? (case : String) (v : Json) : Option Command := do
  let room := Json.depthLimit
  if case = "add" then
    match ← v.fields? ["parentId", "type", "position", "text", "attributes"] with
    | [parentId, type, index, text, attributes] =>
      return .add (← required? Json.string? parentId) (← required? Json.string? type)
        (← optional? none (option? Json.uint64?) index)
        (← optional? none (option? Json.string?) text)
        (← optional? none (option? (Json.stringMap? room)) attributes)
    | _ => none
  else if case = "duplicate" then
    match ← v.fields? ["id"] with
    | [id] => return .duplicate (← required? Json.string? id)
    | _ => none
  else if case = "delete" then
    match ← v.fields? ["id"] with
    | [id] => return .delete (← required? Json.string? id)
    | _ => none
  else if case = "move" then
    match ← v.fields? ["sourceId", "targetId", "position"] with
    | [source, target, position] =>
      return .move (← required? Json.string? source) (← required? Json.string? target)
        (← required? (Json.case? DropPosition.ofName?) position)
    | _ => none
  else if case = "update" then
    match ← v.fields? ["node"] with
    | [node] => return .update (← required? (Node.ofJson? true room) node)
    | _ => none
  else none

def ofJson? (inScript : Bool) (v : Json) : Option Command := do
  guard v.isSound
  let (case, fields) ← v.tagged? inScript "command" caseNames
  ofFields? case fields

/-- The command that a text holds. -/
def ofText? (s : String) : Option Command := (Json.read? s.toList).bind (ofJson? false)

end Command

def EditResult.toJson : EditResult → Json
  | added id => .object [("result", .string "added"), ("id", .string id)]
  | duplicated ids =>
    .object [("result", .string "duplicated"), ("ids", .array (ids.map .string))]
  | deleted id => .object [("result", .string "deleted"), ("id", .string id)]
  | moved id parentId =>
    .object [("result", .string "moved"), ("id", .string id), ("parentId", .string parentId)]
  | updated id => .object [("result", .string "updated"), ("id", .string id)]

end PageEditor
