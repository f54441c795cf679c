import PageEditor.Json.Decode
import PageEditor.Node.Basic

/-!
# Property edits

A new value for one field of a node: its text, its classes, one of its styles or one of its
attributes.
-/
set_option autoImplicit false

namespace PageEditor

open Json (required?)

/-! ## Edits -/

/-- The part of a node that an edit is for. -/
inductive EditField
  | text
  | className
  | style (name : String)
  | attr (name : String)
  deriving DecidableEq, Repr

structure EditKey where
  nodeId : String
  field : EditField
  deriving DecidableEq, Repr

/-- A new value for a field. -/
structure PropertyEdit where
  key : EditKey
  value : String
  deriving DecidableEq, Repr

/-- Writes a value into a field. An empty style or attribute is dropped. What would stand in the
way of the new value, a class or style written as an attribute, goes. -/
def Fields.set (f : Fields) (value : String) : EditField → Fields
  | .text => { f with text := some value }
  | .className =>
    if value = "" then { f with className := value }
    else { f with
      className := value
      attributes := (f.attributes.erase "className").erase "class" }
  | .style name =>
    if value = "" then { f with style := f.style.erase name }
    else { f with attributes := f.attributes.erase "style", style := f.style.insert name value }
  | .attr name =>
    if value = "" then { f with attributes := f.attributes.erase name }
    else { f with attributes := f.attributes.insert name value }

/-! ## JSON -/

namespace EditField

def toJson : EditField → Json
  | text => .object [("field", .string "text")]
  | className => .object [("field", .string "className")]
  | style name => .object [("field", .string "style"), ("name", .string name)]
  | attr name => .object [("field", .string "attribute"), ("name", .string name)]

/-- The field of a case; `name` is what was written as its name, if anything was. -/
def ofCase? (case : String) (name : Option Json) : Option EditField :=
  let absent := match name with
    | none => true
    | some .null => true
    | _ => false
  if case = "text" then if absent then some text else none
  else if case = "className" then if absent then some className else none
  else if case = "style" then (name.bind Json.string?).map style
  else if case = "attribute" then (name.bind Json.string?).map attr
  else none

/-- The cases in their order. -/
def caseNames : List String := ["text", "className", "style", "attribute"]

/-- Reads a field from an object, or from an array of the case and its name. -/
def ofJson? (inScript : Bool) (v : Json) : Option EditField := do
  match v with
  | .object _ =>
    match ← v.fields? ["field", "name"] with
    | [case, name] => ofCase? (← required? (Json.caseName? Json.depthLimit false) case) name
    | _ => none
  | .array [case, name] => ofCase? (← Json.tag? inScript caseNames case) (some name)
  | _ => none

end EditField

namespace EditKey

def toJson (k : EditKey) : Json :=
  .object [("nodeId", .string k.nodeId), ("field", k.field.toJson)]

def ofJson? (inScript : Bool) (v : Json) : Option EditKey := do
  match ← v.fields? ["nodeId", "field"] with
  | [nodeId, field] =>
    return ⟨← required? Json.string? nodeId, ← required? (EditField.ofJson? inScript) field⟩
  | _ => none

end EditKey

namespace PropertyEdit

def toJson (e : PropertyEdit) : Json := .object [("key", e.key.toJson), ("value", .string e.value)]

def ofJson? (inScript : Bool) (v : Json) : Option PropertyEdit := do
  match ← v.fields? ["key", "value"] with
  | [key, value] =>
    return ⟨← required? (EditKey.ofJson? inScript) key, ← required? Json.string? value⟩
  | _ => none

end PropertyEdit

end PageEditor
