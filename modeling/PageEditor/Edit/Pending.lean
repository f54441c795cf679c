import PageEditor.Edit.Property

/-!
# Pending edits

While a user types into a field, its value is a draft. It is released when the field has been quiet
for a while, when the field or its panel is left, or is dropped with its node. There is one draft for
a field at most; drafts stay in the order in which their fields were first staged.
-/
set_option autoImplicit false

namespace PageEditor

/-! ## Drafts -/

/-- A value that is still being typed, and when it was last changed. -/
structure Draft where
  edit : PropertyEdit
  changed : Nat
  deriving DecidableEq, Repr

/-- Drafts, and for how long a field must be quiet; times are milliseconds. -/
structure Pending where
  quiet : Nat := 300
  drafts : List Draft := []
  deriving DecidableEq, Repr

namespace Pending

def size (p : Pending) : Nat := p.drafts.length

/-- Overwrites the draft for the same field, or puts a new one at the end. -/
def put (d : Draft) : List Draft → List Draft
  | [] => [d]
  | e :: es => if e.edit.key = d.edit.key then d :: es else e :: put d es

def stage (p : Pending) (e : PropertyEdit) (now : Nat) : Pending :=
  { p with drafts := put ⟨e, now⟩ p.drafts }

/-- The value that a field should show, if it has a draft. -/
def draft? (p : Pending) (key : EditKey) : Option String :=
  (p.drafts.find? (·.edit.key == key)).map (·.edit.value)

/-- Releases the drafts that have a property. -/
def release (p : Pending) (ready : Draft → Bool) : List PropertyEdit × Pending :=
  ((p.drafts.filter ready).map (·.edit), { p with drafts := p.drafts.filter fun d => !ready d })

/-- Releases what has been quiet for long enough. A change that lies ahead was made just now. -/
def due (p : Pending) (now : Nat) : List PropertyEdit × Pending :=
  p.release fun d => p.quiet ≤ now - d.changed

/-- Releases one field. -/
def flush (p : Pending) (key : EditKey) : List PropertyEdit × Pending :=
  p.release fun d => d.edit.key == key

def flushAll (p : Pending) : List PropertyEdit × Pending := p.release fun _ => true

/-- Drops the drafts for a node. -/
def discard (p : Pending) (nodeId : String) : Pending :=
  { p with drafts := p.drafts.filter fun d => d.edit.key.nodeId != nodeId }

end Pending

end PageEditor
