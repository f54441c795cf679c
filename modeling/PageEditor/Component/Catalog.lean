import PageEditor.Markup.Value
import PageEditor.View.VNode

/-!
# Catalog

The components that a page may use without more ado. A descriptor names a component, its family, the
tag and the class tokens of the element it makes, and how it is made: as an icon, as an element like
any other, or as a group without an element.
-/
set_option autoImplicit false

namespace PageEditor

/-! ## Descriptors -/

inductive Family
  | icon | widget | builtin
  deriving DecidableEq, Repr

namespace Family

def all : List Family := [icon, widget, builtin]

def name : Family → String
  | icon => "icon"
  | widget => "widget"
  | builtin => "builtin"

def ofName? (s : String) : Option Family := all.find? (·.name == s)

theorem ofName?_name (f : Family) : ofName? f.name = some f := by
  cases f <;> decide

end Family

/-- How a component is made. -/
inductive Construction
  | icon | primitive | fragment
  deriving DecidableEq, Repr

structure Descriptor where
  name : String
  family : Family
  tag : String
  classTokens : List String
  construction : Construction
  deriving DecidableEq, Repr

/-- What a component is made from. -/
structure Props where
  nodeId : String
  className : String
  style : OrderedMap String
  attributes : OrderedMap String
  text : Option String

namespace Props

def ofNode (n : Node) : Props :=
  ⟨n.id, n.fields.className, n.fields.style, n.fields.attributes, n.fields.text⟩

/-- The string that an attribute means. -/
def attribute? (p : Props) (name : String) : Option String :=
  (p.attributes.get? name).map Value.literal

/-- The text as a view node, unless it is empty. -/
def textNodes (p : Props) : List VNode :=
  ((p.text.filter (· != "")).map VNode.text).toList

end Props

/-- Entries with the strings that their values mean. -/
def literalEntries (m : OrderedMap String) : List (String × String) :=
  m.entries.map fun e => (e.1, Value.literal e.2)

/-! ## Making components -/

/-- A name in small letters, with a dash before each capital but the first character. -/
def kebabCase (name : String) : String :=
  match name.toList with
  | [] => ""
  | c :: cs =>
    String.ofList (c.toLower :: cs.flatMap fun c => if c.isUpper then ['-', c.toLower] else [c])

namespace Descriptor

/-- The tokens of the descriptor and the classes of the node. -/
def mergedClass (d : Descriptor) (p : Props) : String :=
  String.intercalate " " (d.classTokens ++ Text.words p.className)

/-- The merged class, if it is not empty. -/
def classAttribute (d : Descriptor) (p : Props) : OrderedMap String :=
  let merged := d.mergedClass p
  if merged = "" then .empty else OrderedMap.empty.insert "class" merged

/-- An element with the descriptor's tag and the node's style. -/
def elementWith (d : Descriptor) (p : Props) (attributes : List (String × String))
    (children : List VNode) : VNode :=
  .element d.tag (some p.nodeId) ((d.classAttribute p).insertAll attributes)
    (.ofList (literalEntries p.style)) children none 0

/-- Makes the component around its rendered children. An icon drops them. -/
def instantiate (d : Descriptor) (p : Props) (children : List VNode) : VNode :=
  match d.construction with
  | .icon =>
    let size := (p.attribute? "size").getD "24"
    d.elementWith p [("data-icon", kebabCase d.name), ("width", size), ("height", size),
      ("viewBox", "0 0 24 24")] []
  | .primitive => d.elementWith p (literalEntries p.attributes) (p.textNodes ++ children)
  | .fragment => .fragment (p.textNodes ++ children)

end Descriptor

/-! ## The catalog -/

structure Catalog where
  entries : OrderedMap Descriptor := .empty

namespace Catalog

def find? (c : Catalog) (name : String) : Option Descriptor := c.entries.get? name

def descriptors (c : Catalog) : List Descriptor := c.entries.entries.map (·.2)

def register (c : Catalog) (d : Descriptor) : Catalog := ⟨c.entries.insert d.name d⟩

def ofList (ds : List Descriptor) : Catalog := ds.foldl register {}

def iconNames : List String :=
  ["ArrowLeft", "ArrowRight", "Bell", "Calendar", "Check", "ChevronDown", "ChevronLeft",
    "ChevronRight", "ChevronUp", "Copy", "Download", "Heart", "Home", "Info", "Mail", "Menu",
    "Minus", "Plus", "Search", "Settings", "ShoppingCart", "Star", "Trash", "Upload", "User", "X"]

/-- Names, tags and class tokens of the widgets. -/
def widgetTable : List (String × String × List String) :=
  [("Button", "button", ["inline-flex", "items-center", "rounded-md", "px-4", "py-2"]),
    ("Badge", "span", ["inline-flex", "rounded-full", "px-2", "text-xs"]),
    ("Card", "div", ["rounded-lg", "border", "shadow-sm"]),
    ("CardHeader", "div", ["flex", "flex-col", "p-6"]),
    ("CardTitle", "h3", ["text-2xl", "font-semibold"]),
    ("CardDescription", "p", ["text-sm", "text-muted-foreground"]),
    ("CardContent", "div", ["p-6", "pt-0"]),
    ("CardFooter", "div", ["flex", "items-center", "p-6", "pt-0"]),
    ("Input", "input", ["h-10", "w-full", "rounded-md", "border", "px-3"]),
    ("Label", "label", ["text-sm", "font-medium"]),
    ("Separator", "hr", ["shrink-0", "bg-border"]),
    ("Avatar", "span", ["relative", "flex", "h-10", "w-10", "rounded-full"])]

/-- The icons, the widgets, and the builtin group, link and image. -/
def standard : Catalog :=
  .ofList <|
    iconNames.map (fun name => ⟨name, .icon, "svg", ["inline-block", "shrink-0"], .icon⟩)
    ++ widgetTable.map (fun (name, tag, tokens) => ⟨name, .widget, tag, tokens, .primitive⟩)
    ++ [⟨"Fragment", .builtin, "", [], .fragment⟩, ⟨"Link", .builtin, "a", [], .primitive⟩,
      ⟨"Image", .builtin, "img", [], .primitive⟩]

end Catalog

end PageEditor
