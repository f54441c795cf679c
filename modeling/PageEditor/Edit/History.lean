import PageEditor.Tree

/-!
# History

Undoing and redoing by snapshots. Each entry holds the tree as it was on the other side of a step.
Several edits may be gathered into one step, which a batch does from its start to its end. A new step
drops what could be redone, and with a limit the oldest step makes room for it.
-/
set_option autoImplicit false

namespace PageEditor

/-! ## Entries -/

/-- A tree to go back to, and what the step is called. -/
structure Snapshot where
  tree : Tree
  label : String

/-- Edits that are gathered into one step: the tree before them, what the first of them was called,
and what the step as a whole was called. -/
structure Batch where
  before : Tree
  first : Option String := none
  label : Option String := none

/-- The steps that can be undone and redone, the nearest one first. A limit of 0 means none. -/
structure History where
  limit : Nat := 100
  past : List Snapshot := []
  future : List Snapshot := []
  batch : Option Batch := none

namespace History

instance : Inhabited History := ⟨{}⟩

/-! ## Steps -/

/-- Drops the oldest step if there are more steps than the limit allows. -/
def trim (limit : Nat) (steps : List Snapshot) : List Snapshot :=
  if 0 < limit ∧ limit < steps.length then steps.dropLast else steps

def push (h : History) (s : Snapshot) : History :=
  { h with past := trim h.limit (s :: h.past), future := [] }

/-- Notes an edit that was made on the tree `before`. Within a batch only its start counts. -/
def record (h : History) (before : Tree) (label : String) : History :=
  match h.batch with
  | some b => { h with batch := some { b with first := b.first.or (some label) } }
  | none => h.push ⟨before, label⟩

/-- Starts a batch, unless one is open. -/
def beginBatch (h : History) (t : Tree) : History :=
  { h with batch := h.batch.or (some { before := t }) }

/-- Says what the step of the open batch is called. -/
def labelBatch (h : History) (label : String) : History :=
  { h with batch := h.batch.map fun b => { b with label := some label } }

/-- Ends the batch. It is a step if there was an edit in it. -/
def endBatch (h : History) : History :=
  match h.batch with
  | none => h
  | some b =>
    match b.first with
    | none => { h with batch := none }
    | some first => { h with batch := none }.push ⟨b.before, b.label.getD first⟩

/-- Takes the nearest step back; gives the tree before it. -/
def undo? (h : History) (t : Tree) : Option (Tree × History) :=
  match h.past with
  | [] => none
  | s :: past => some (s.tree, { h with past, future := ⟨t, s.label⟩ :: h.future })

/-- Takes the nearest undone step again; gives the tree behind it. -/
def redo? (h : History) (t : Tree) : Option (Tree × History) :=
  match h.future with
  | [] => none
  | s :: future => some (s.tree, { h with past := ⟨t, s.label⟩ :: h.past, future })

/-- Forgets everything but the limit. -/
def clear (h : History) : History := { limit := h.limit }

/-! ## Looking -/

def undoLevels (h : History) : Nat := h.past.length

def redoLevels (h : History) : Nat := h.future.length

def canUndo (h : History) : Bool := !h.past.isEmpty

def canRedo (h : History) : Bool := !h.future.isEmpty

def undoLabel? (h : History) : Option String := h.past.head?.map (·.label)

def redoLabel? (h : History) : Option String := h.future.head?.map (·.label)

end History

end PageEditor
