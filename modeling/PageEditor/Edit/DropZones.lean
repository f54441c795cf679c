import PageEditor.Edit.Structure
import PageEditor.Json.Decode

/-!
# Drop zones

What a pointer means that lets a node go over another one. The band at the left edge of the target
means its parent; the bands at its upper and lower edge mean the places before and behind it.
-/
set_option autoImplicit false

namespace PageEditor

/-- How wide the bands are, as parts of the target's width and height. -/
structure DropZones where
  outsideBand : Float := 0.1
  edgeBand : Float := 0.25

namespace DropZones

/-- The position that a pointer means at `(x, y)` in a box. The left band wins. -/
def position (z : DropZones) (x y width height : Float) : DropPosition :=
  if x < width * z.outsideBand then .outside
  else if y < height * z.edgeBand then .before
  else if height * (1.0 - z.edgeBand) < y then .after
  else .inside

def toJson (z : DropZones) : Json :=
  .object
    [("outsideBand", .number (.double z.outsideBand)), ("edgeBand", .number (.double z.edgeBand))]

def ofJson? (room : Nat) (v : Json) : Option DropZones := do
  guard (0 < room)
  match ← v.fields? ["outsideBand", "edgeBand"] with
  | [outside, edge] =>
    let standard : DropZones := {}
    return {
      outsideBand := ← Json.optional? standard.outsideBand Json.double? outside
      edgeBand := ← Json.optional? standard.edgeBand Json.double? edge }
  | _ => none

def decode? (v : Json) : Option DropZones := ofJson? Json.depthLimit v

end DropZones

end PageEditor
