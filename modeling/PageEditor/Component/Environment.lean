import PageEditor.Component.Catalog
import PageEditor.Markup.Error

/-!
# Environments

Which components a page may use. A package is allowed for one family of components, and so is
everything below it in its path. `Environment.direct?` finds components that can be made at once,
`Environment.resolve` the ones that a compiled component may contain.
-/
set_option autoImplicit false

namespace PageEditor

/-! ## Packages -/

/-- The parts of a path in front of its slashes, the shortest one first. -/
def slashPrefixes : List Char → List (List Char)
  | [] => []
  | c :: cs => (if c = '/' then [[]] else []) ++ (slashPrefixes cs).map (c :: ·)

/-- The allowed packages and their families. -/
structure Packages where
  families : OrderedMap Family := .empty

namespace Packages

def allow (p : Packages) (package : String) (family : Family) : Packages :=
  ⟨p.families.insert package family⟩

/-- The family of the longest allowed path that the package lies at or below. -/
def family? (p : Packages) (package : String) : Option Family :=
  (package.toList :: (slashPrefixes package.toList).reverse).findSome? fun path =>
    p.families.get? (String.ofList path)

def standard : Packages :=
  ⟨.ofList [("lucide-react", .icon), ("@/components/ui", .widget), ("next/link", .builtin),
    ("next/image", .builtin), ("react", .builtin)]⟩

end Packages

/-! ## Errors -/

/-- Why a component cannot be compiled. -/
inductive CompileError
  | unparsable (e : ParseError)
  | packageNotAllowed (package : String)
  | nameNotAllowed (name package : String)
  | unknownTag (tag : String)
  | emptySnippet
  deriving DecidableEq, Repr

def CompileError.message : CompileError → String
  | unparsable e => "Snippet failed to parse: " ++ e.message
  | packageNotAllowed package => "Package '" ++ package ++ "' is not in the allowed module list"
  | nameNotAllowed name package => "'" ++ name ++ "' is not provided by '" ++ package ++ "'"
  | unknownTag tag => "Tag '" ++ tag ++ "' is neither a primitive element nor a component"
  | emptySnippet => "Snippet produced no element"

/-! ## Environments -/

structure Environment where
  catalog : Catalog
  packages : Packages

namespace Environment

def standard : Environment := ⟨.standard, .standard⟩

/-- The family that a package may provide; a name without package is builtin. -/
def family? (env : Environment) (package : String) : Option Family :=
  if package = "" then some .builtin else env.packages.family? package

/-- The catalog's component of that very name, if the package may provide it. -/
def direct? (env : Environment) (c : ComponentInfo) : Option Descriptor :=
  if c.imported.toList.contains '.' then none
  else (env.catalog.find? c.imported).filter fun d => env.family? c.package == some d.family

/-- The names under which a component is looked up: its own, its parts run together, its last
part. -/
def namesOf (imported : String) : List String :=
  [imported, String.ofList (imported.toList.filter (· != '.')),
    String.ofList (imported.toList.reverse.takeWhile (· != '.')).reverse]

/-- The first component of the package's family under one of the names. -/
def resolve (env : Environment) (c : ComponentInfo) : Except CompileError Descriptor :=
  match env.family? c.package with
  | none => .error (.packageNotAllowed c.package)
  | some family =>
    match ((namesOf c.imported).filterMap env.catalog.find?).find? (·.family == family) with
    | some d => .ok d
    | none => .error (.nameNotAllowed c.imported c.package)

end Environment

/-! ## Primitive elements -/

/-- The tags that need no component. -/
def htmlTags : List String :=
  ["a", "abbr", "address", "area", "article", "aside", "audio", "b", "blockquote", "br", "button",
    "canvas", "caption", "cite", "code", "col", "colgroup", "data", "datalist", "dd", "del",
    "details", "dfn", "dialog", "div", "dl", "dt", "em", "embed", "fieldset", "figcaption",
    "figure", "footer", "form", "h1", "h2", "h3", "h4", "h5", "h6", "header", "hgroup", "hr", "i",
    "iframe", "img", "input", "ins", "kbd", "label", "legend", "li", "main", "mark", "menu",
    "meter", "nav", "ol", "optgroup", "option", "output", "p", "picture", "pre", "progress", "q",
    "s", "samp", "search", "section", "select", "small", "source", "span", "strong", "sub",
    "summary", "sup", "svg", "table", "tbody", "td", "textarea", "tfoot", "th", "thead", "time",
    "tr", "track", "u", "ul", "var", "video", "wbr"]

def isHtmlTag (name : String) : Bool := htmlTags.contains name

end PageEditor
