import PageEditor.Component.Plan
import PageEditor.Digest.Sha256

/-!
# Cache

Compiled components by the hash of what they are compiled from. `Node.keyText` writes the fields
that count, so that nodes with different fields have different texts.
-/
set_option autoImplicit false

namespace PageEditor

/-! ## Keys -/

/-- The fields of a node that a compiled component depends on; its children are not among them. -/
def Node.keyText (n : Node) : String :=
  (Json.object
    [("id", .string n.id), ("type", .string n.type), ("className", .string n.fields.className),
      ("style", Json.ofStringMap n.fields.style),
      ("attributes", Json.ofStringMap n.fields.attributes),
      ("componentInfo", Json.ofOption ComponentInfo.toJson n.component),
      ("textContent", Json.ofOption Json.string n.fields.text)]).text

def Node.cacheKey (n : Node) : String := Digest.sha256Text n.keyText

/-! ## Entries -/

/-- Plans and errors by key. Nothing is ever dropped. -/
structure Cache where
  entries : OrderedMap (Except CompileError Plan) := .empty

namespace Cache

def get? (c : Cache) (key : String) : Option (Except CompileError Plan) := c.entries.get? key

def insert (c : Cache) (key : String) (r : Except CompileError Plan) : Cache :=
  ⟨c.entries.insert key r⟩

def size (c : Cache) : Nat := c.entries.size

end Cache

end PageEditor
