/-!
# Files

Texts behind paths. A path is a row of names with slashes between them; it is followed name by name
from the working folder, or from above it when it begins with a slash. Every name that has another
one behind it, even an empty one, must lead to a folder.
-/
set_option autoImplicit false

namespace PageEditor

/-! ## Paths -/

/-- A path in a folder. -/
def joinPath (folder path : String) : String :=
  if path.toList.head? = some '/' then path
  else if folder.toList.getLast? = some '/' then folder ++ path
  else folder ++ "/" ++ path

/-- The names in a path; `name` comes last character first. -/
def namesFrom (name : List Char) : List Char → List String
  | [] => [String.ofList name.reverse]
  | '/' :: cs => String.ofList name.reverse :: namesFrom [] cs
  | c :: cs => namesFrom (c :: name) cs

def pathNames (path : String) : List String := namesFrom [] path.toList

/-! ## Reading and writing -/

/-- What reading a path gives. -/
inductive FileContent
  | absent
  | unreadable
  | text (s : String)
  deriving DecidableEq, Repr

/-- Why a path leads nowhere, or nowhere that could be written. -/
inductive FileError
  | notFound
  | notFolder
  | isFolder
  | nameTooLong
  | nulInName
  | other (message : String)
  deriving DecidableEq, Repr

def FileError.message : FileError → String
  | notFound => "No such file or directory (os error 2)"
  | notFolder => "Not a directory (os error 20)"
  | isFolder => "Is a directory (os error 21)"
  | nameTooLong => "File name too long (os error 36)"
  | nulInName => "file name contained an unexpected NUL byte"
  | other message => message

/-! ## Files in memory -/

/-- The files below a working folder, by the names that lead to them. A folder is there if something
is in it. Around the working folder are folders only, and what is written there is lost. -/
structure Files where
  entries : List (List String × String) := []
  deriving DecidableEq, Repr

namespace Files

/-- Where a path leads: below the working folder by some names, or out of it. -/
inductive Spot
  | inside (names : List String)
  | outside
  deriving DecidableEq, Repr

/-- Whether a row of names leads to a file or into a folder. -/
def has (f : Files) (names : List String) : Bool := f.entries.any fun (path, _) => names.isPrefixOf path

def isFolder (f : Files) : Spot → Bool
  | .outside => true
  | .inside names =>
    names.isEmpty || f.entries.any fun (path, _) => names.isPrefixOf path && names.length < path.length

/-- Follows one name. -/
def step (f : Files) (spot : Spot) (name : String) : Except FileError Spot :=
  if !f.isFolder spot then .error .notFolder
  else if name = "" ∨ name = "." then .ok spot
  else
    match spot with
    | .outside => if name = ".." then .ok .outside else .error .notFound
    | .inside names =>
      if name = ".." then .ok (if names.isEmpty then .outside else .inside names.dropLast)
      else if 255 < name.utf8ByteSize then .error .nameTooLong
      else if f.has (names ++ [name]) then .ok (.inside (names ++ [name]))
      else .error .notFound

/-- Follows names from where a path begins. -/
def follow (f : Files) (names : List String) : Except FileError Spot :=
  names.foldlM f.step (if names.head? = some "" then .outside else .inside [])

def read (f : Files) (path : String) : FileContent :=
  match f.follow (pathNames path) with
  | .error _ => .absent
  | .ok spot =>
    if f.isFolder spot then .unreadable
    else
      match spot with
      | .outside => .absent
      | .inside names => ((f.entries.lookup names).map .text).getD .absent

def put (names : List String) (text : String) :
    List (List String × String) → List (List String × String)
  | [] => [(names, text)]
  | e :: es => if e.1 = names then (names, text) :: es else e :: put names text es

/-- Puts a text where a path leads to, in place of what was there. The path must not end in a slash,
and all of it but the last name must lead to a folder. -/
def write (f : Files) (path text : String) : Except FileError Files := do
  if '\x00' ∈ path.toList then throw .nulInName
  let names := pathNames path
  match (names.reverse.dropWhile (· = "")) with
  | [] => throw .isFolder
  | name :: before =>
    let folder ← f.follow before.reverse
    if !f.isFolder folder then throw .notFolder
    if name = "." ∨ name = ".." ∨ names.getLast? = some "" then throw .isFolder
    if 255 < name.utf8ByteSize then throw .nameTooLong
    match folder with
    | .outside => return f
    | .inside above =>
      if f.isFolder (.inside (above ++ [name])) then throw .isFolder
      return ⟨put (above ++ [name]) text f.entries⟩

/-- The files of a list of paths with texts; of two with one path the later. -/
def ofList (files : List (String × String)) : Files :=
  ⟨files.foldl (fun es (path, text) =>
    put ((pathNames path).filter fun name => name ≠ "" ∧ name ≠ ".") text es) []⟩

/-- The paths with texts that are not there before. -/
def news (f before : Files) : List (String × String) :=
  (f.entries.filter (· ∉ before.entries)).map fun (names, text) => ("/".intercalate names, text)

end Files

end PageEditor
