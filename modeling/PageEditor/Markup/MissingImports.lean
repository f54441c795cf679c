import PageEditor.Markup.Page

/-!
# Missing imports

Import statements for the components that a tree uses and its text does not import. They come in one
block behind the last import, or in front of the text.
-/
set_option autoImplicit false

namespace PageEditor

/-! ## What is needed -/

/-- A name that some component of the tree needs. -/
structure Needed where
  package : String
  imported : String
  localName : String
  kind : ImportKind
  deriving DecidableEq, Repr

/-- The part of a name in front of its first dot. -/
def baseName (name : String) : String := String.ofList (name.toList.takeWhile (· != '.'))

/-- What a node needs; a component without a package needs nothing. -/
def Node.needed? (n : Node) : Option Needed :=
  match n.component? with
  | none => none
  | some c =>
    if c.package = "" then none
    else
      let localName := baseName n.type
      some ⟨c.package, if c.kind = .named then baseName c.imported else localName, localName, c.kind⟩

mutual

/-- What the node and the nodes below it need, in document order. -/
def Node.neededAll : Node → List Needed
  | ⟨id, fields, component, origin, children⟩ =>
    (Node.needed? ⟨id, fields, component, origin, children⟩).toList ++ Node.neededIn children

def Node.neededIn : List Node → List Needed
  | [] => []
  | n :: ns => n.neededAll ++ Node.neededIn ns

end

/-! ## Statements -/

/-- Adds an entry at the end unless it is there. -/
def addNew {α : Type} [DecidableEq α] (xs : List α) (x : α) : List α :=
  if x ∈ xs then xs else xs ++ [x]

namespace Needed

/-- The name in a list of names. -/
def specifier (n : Needed) : String :=
  if n.imported = n.localName then n.imported else n.imported ++ " as " ++ n.localName

/-- The names of each package, packages and names in the order of their first need. -/
def byPackage (ns : List Needed) : OrderedMap (List String) :=
  ns.foldl (fun m n =>
    if n.kind = .named then
      m.insert n.package (addNew ((m.get? n.package).getD []) n.specifier)
    else m) .empty

/-- The statement for a default export or a whole package. -/
def singleLine? (n : Needed) : Option String :=
  match n.kind with
  | .named => none
  | .default => some ("import " ++ n.localName ++ " from \"" ++ n.package ++ "\";")
  | .whole => some ("import * as " ++ n.localName ++ " from \"" ++ n.package ++ "\";")

/-- One statement for each package with named exports, then one for each other need. -/
def lines (ns : List Needed) : List String :=
  (byPackage ns).entries.map (fun e =>
    "import \x7b " ++ String.intercalate ", " e.2 ++ " \x7d from \"" ++ e.1 ++ "\";")
  ++ ns.filterMap singleLine?

end Needed

/-! ## Adding them -/

namespace Import

/-- Puts a block of text behind the last import, or in front of everything. -/
def insertBlock (source : List Char) (imports : List Import) (block : List Char) : List Char :=
  match imports.getLast? with
  | some i =>
    match Text.splitBytes i.span.stop source with
    | some (front, back) => front ++ '\n' :: block ++ back
    | none => source
  | none => block ++ (if source.head? = some '\n' then ['\n'] else ['\n', '\n']) ++ source

end Import

namespace Tree

/-- What the tree needs, each need once. -/
def needed (t : Tree) : List Needed := t.root.neededAll.foldl addNew []

/-- What the tree needs and the imports do not name. -/
def missing (t : Tree) (imports : List Import) : List Needed :=
  t.needed.filter fun n => (Import.resolve? imports n.localName).isNone

/-- The text with the missing imports; a text whose imports cannot be read stays as it is. -/
def syncImports (t : Tree) (source : List Char) : List Char :=
  match (Cursor.ofText source).prelude with
  | .error _ => source
  | .ok (imports, _) =>
    let missing := t.missing imports
    if missing.isEmpty then source
    else
      Import.insertBlock source imports (String.intercalate "\n" (Needed.lines missing)).toList

end Tree

end PageEditor
