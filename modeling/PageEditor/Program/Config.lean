import PageEditor.Component.Environment
import PageEditor.Edit.DropZones
import PageEditor.Edit.Pending

/-!
# Configuration

The settings of the program: drop zones, how long a field must be quiet, class tokens of new
elements, further packages, and how many steps can be undone. What a configuration leaves out has
its default.
-/
set_option autoImplicit false

namespace PageEditor

structure Config where
  dropZones : DropZones := {}
  editDebounceMs : UInt64 := 300
  classPalette : Palette := .standard
  allowedPackages : OrderedMap Family := .empty
  undoLevels : UInt64 := 100

namespace Config

open Json (optional?)

def toJson (c : Config) : Json :=
  .object
    [("dropZones", c.dropZones.toJson), ("editDebounceMs", .ofNat c.editDebounceMs.toNat),
      ("classPalette", c.classPalette.toJson),
      ("allowedPackages", Json.ofMap (fun f => .string f.name) c.allowedPackages),
      ("undoLevels", .ofNat c.undoLevels.toNat)]

def ofJson? (room : Nat) (v : Json) : Option Config := do
  guard (0 < room)
  let room := room - 1
  let family? := fun (room : Nat) (v : Json) => (v.caseName? room false).bind Family.ofName?
  match ← v.fields? ["dropZones", "editDebounceMs", "classPalette", "allowedPackages",
      "undoLevels"] with
  | [zones, debounce, palette, packages, levels] =>
    let standard : Config := {}
    return {
      dropZones := ← optional? standard.dropZones (DropZones.ofJson? room) zones
      editDebounceMs := ← optional? standard.editDebounceMs Json.uint64? debounce
      classPalette := ← optional? standard.classPalette (Palette.ofJson? room) palette
      allowedPackages := ← optional? standard.allowedPackages (Json.map? room family?) packages
      undoLevels := ← optional? standard.undoLevels Json.uint64? levels }
  | _ => none

/-- The configuration that a text holds. -/
def ofText? (s : String) : Option Config :=
  (Json.read? s.toList).bind (ofJson? Json.depthLimit)

def pending (c : Config) : Pending := { quiet := c.editDebounceMs.toNat }

def defaults (c : Config) : Defaults := .withPalette c.classPalette

/-- The standard packages and the configured ones. -/
def environment (c : Config) : Environment :=
  ⟨.standard, c.allowedPackages.entries.foldl (fun p (name, family) => p.allow name family)
    .standard⟩

end Config

end PageEditor
