import PageEditor.Component.Catalog
import PageEditor.Json.Decode

/-!
# Defaults of new elements

What an element looks like when it has just been added: placeholder text and attributes for its
type, the class tokens that a palette gives the type, and, for the components of the catalog, where
they are imported from.
-/
set_option autoImplicit false

namespace PageEditor

/-! ## Palettes -/

/-- The class tokens of new elements, by their type. -/
structure Palette where
  tokens : OrderedMap (List String) := .empty

namespace Palette

def standard : Palette :=
  ⟨.ofList
    [("div", ["p-4"]),
      ("section", ["py-8", "px-4"]),
      ("p", ["text-base", "text-gray-700"]),
      ("h1", ["text-4xl", "font-bold"]),
      ("h2", ["text-3xl", "font-bold"]),
      ("h3", ["text-2xl", "font-semibold"]),
      ("h4", ["text-xl", "font-semibold"]),
      ("h5", ["text-lg", "font-medium"]),
      ("h6", ["text-base", "font-medium"]),
      ("button", ["px-4", "py-2", "rounded", "bg-blue-600", "text-white"]),
      ("a", ["text-blue-600", "underline"]),
      ("img", ["max-w-full", "h-auto"]),
      ("ul", ["list-disc", "pl-6"])]⟩

def tokensFor (p : Palette) (type : String) : List String := (p.tokens.get? type).getD []

/-- Gives a type other tokens. -/
def set (p : Palette) (type : String) (tokens : List String) : Palette :=
  ⟨p.tokens.insert type tokens⟩

def toJson (p : Palette) : Json := Json.ofMap (fun ts => .array (ts.map .string)) p.tokens

def ofJson? (room : Nat) (v : Json) : Option Palette :=
  (v.map? room fun room v => v.list? room fun _ => Json.string?).map (⟨·⟩)

def decode? (v : Json) : Option Palette := ofJson? Json.depthLimit v

end Palette

/-! ## Components -/

/-- Where a component of the catalog is imported from. -/
def Descriptor.importInfo (d : Descriptor) : ComponentInfo :=
  let (package, kind) : String × ImportKind :=
    match d.family with
    | .icon => ("lucide-react", .named)
    | .widget => ("@/components/ui", .named)
    | .builtin =>
      if d.name = "Link" then ("next/link", .default)
      else if d.name = "Image" then ("next/image", .default)
      else ("react", .named)
  ⟨true, package, d.name, kind⟩

/-! ## Defaults -/

structure Defaults where
  texts : OrderedMap String
  attributes : OrderedMap (List (String × String))
  palette : Palette
  catalog : Catalog

namespace Defaults

def standardTexts : OrderedMap String :=
  .ofList
    [("p", "paragraph text"), ("button", "Button"), ("a", "Link"), ("span", "text"),
      ("li", "List item"), ("Button", "Button"), ("Badge", "Badge"), ("Label", "Label"),
      ("h1", "Heading 1"), ("h2", "Heading 2"), ("h3", "Heading 3"), ("h4", "Heading 4"),
      ("h5", "Heading 5"), ("h6", "Heading 6")]

def standardAttributes : OrderedMap (List (String × String)) :=
  .ofList
    [("img", [("src", "/placeholder.svg"), ("alt", "Placeholder image")]), ("a", [("href", "#")])]

/-- The standard placeholders and catalog with a palette. -/
def withPalette (palette : Palette) : Defaults :=
  ⟨standardTexts, standardAttributes, palette, .standard⟩

def standard : Defaults := withPalette .standard

/-- A new node of a type with all its defaults. -/
def build (d : Defaults) (id type : String) : Node where
  id
  fields := {
    type
    className := String.intercalate " " (d.palette.tokensFor type)
    attributes := .ofList ((d.attributes.get? type).getD [])
    text := d.texts.get? type }
  component := (d.catalog.find? type).map Descriptor.importInfo

end Defaults

end PageEditor
