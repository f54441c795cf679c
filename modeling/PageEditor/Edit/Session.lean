import PageEditor.Edit.Command
import PageEditor.Edit.History
import PageEditor.Edit.Pending
import PageEditor.Edit.Selection
import PageEditor.Markup.Patch
import PageEditor.View.Render

/-!
# Editing sessions

A text that is being edited. If it is a page, its tree can be edited, undone, rendered and saved; the
saved text is the loaded one with what has changed patched in. A text that is no page is kept as it
is: it can be shown and saved, but not edited.
-/
set_option autoImplicit false

namespace PageEditor

/-! ## Sessions -/

/-- What a text turned out to be. -/
inductive Mode
  | page (t : Tree)
  | verbatim (e : ParseError)

/-- Editing was asked for in a text that is no page. -/
structure EditingDisabled where
  reason : ParseError
  deriving DecidableEq, Repr

def EditingDisabled.message (e : EditingDisabled) : String :=
  "Structural editing is disabled: " ++ e.reason.message

/-- What became of a command. -/
inductive Response
  | applied (r : EditResult)
  | rejected (e : EditError)
  deriving DecidableEq, Repr

/-- Why a command that came as a text was not looked at. -/
inductive DispatchError
  | notACommand
  | disabled (e : EditingDisabled)
  deriving DecidableEq, Repr

structure Session where
  source : String
  mode : Mode
  defaults : Defaults := .standard
  selection : Selection := {}
  history : History := {}
  queue : Queue := {}
  previews : Previews := .empty
  version : Nat := 0

def Mode.ofText (source : String) : Mode :=
  match Page.read source with
  | .ok p => .page p.tree
  | .error e => .verbatim e

namespace Session

/-! ## Loading and saving -/

def load (source : String) (defaults : Defaults := .standard) (undoLevels : Nat := 100) :
    Session where
  source
  mode := .ofText source
  defaults
  history := { limit := undoLevels }

def tree? (s : Session) : Option Tree :=
  match s.mode with
  | .page t => some t
  | .verbatim _ => none

def isPage (s : Session) : Bool := s.tree?.isSome

def parseError? (s : Session) : Option ParseError :=
  match s.mode with
  | .page _ => none
  | .verbatim e => some e

/-- Drops a selection that the session no longer has. -/
def reconcile (s : Session) : Session :=
  { s with
    selection := match s.mode with
      | .page t => s.selection.reconcile t
      | .verbatim _ => {} }

/-- Takes another text. What waits to be compiled goes on waiting. -/
def reload (s : Session) (source : String) : Session :=
  { s with
    source
    mode := .ofText source
    history := s.history.clear
    previews := .empty
    version := s.version + 1 }.reconcile

/-- The text with all edits. -/
def save (s : Session) : String :=
  match s.mode with
  | .page t => t.regenerate s.source
  | .verbatim _ => s.source

/-! ## Editing -/

/-- Goes on with another tree. -/
def withTree (s : Session) (t : Tree) (history : History) : Session :=
  { s with mode := .page t, history, version := s.version + 1 }

/-- Carries a command out as one step. A command that cannot be done is no step. -/
def dispatch (s : Session) (c : Command) : Except EditingDisabled Response × Session :=
  match s.mode with
  | .verbatim e => (.error ⟨e⟩, s)
  | .page t =>
    match c.apply s.defaults t with
    | (.error e, t') => (.ok (.rejected e), { s with mode := .page t' })
    | (.ok r, t') =>
      (.ok (.applied r), (s.withTree t' (s.history.record t c.describe)).reconcile)

/-- Carries out the command that a text holds. -/
def dispatchText (s : Session) (text : String) : Except DispatchError Response × Session :=
  match Command.ofText? text with
  | none => (.error .notACommand, s)
  | some c =>
    let (r, s) := s.dispatch c
    (r.mapError .disabled, s)

/-- Writes edits into the nodes that are there; tells how many there were. -/
def writeEdits (t : Tree) : List PropertyEdit → Nat × Tree
  | [] => (0, t)
  | e :: es =>
    match t.find? e.key.nodeId with
    | none => writeEdits t es
    | some _ =>
      let (n, t) := writeEdits
        (t.modify e.key.nodeId fun n => { n with fields := n.fields.set e.value e.key.field }) es
      (n + 1, t)

/-- Writes released edits into the tree as one step; tells how many there were. -/
def commit (s : Session) (es : List PropertyEdit) : Except EditingDisabled Nat × Session :=
  match s.mode with
  | .verbatim e => (.error ⟨e⟩, s)
  | .page t =>
    let (n, t') := writeEdits t es
    if n = 0 then (.ok 0, s)
    else (.ok n, s.withTree t' (s.history.record t "Edit properties"))

/-- Takes the nearest step back, if there is one. -/
def undo (s : Session) : Except EditingDisabled Bool × Session :=
  match s.mode with
  | .verbatim e => (.error ⟨e⟩, s)
  | .page t =>
    match s.history.undo? t with
    | none => (.ok false, s)
    | some (t', history) => (.ok true, (s.withTree t' history).reconcile)

/-- Takes the nearest undone step again, if there is one. -/
def redo (s : Session) : Except EditingDisabled Bool × Session :=
  match s.mode with
  | .verbatim e => (.error ⟨e⟩, s)
  | .page t =>
    match s.history.redo? t with
    | none => (.ok false, s)
    | some (t', history) => (.ok true, (s.withTree t' history).reconcile)

/-! ## Selecting -/

/-- Selects the node that was clicked on. -/
def click (s : Session) (id : String) : Bool × Session :=
  match s.mode with
  | .verbatim _ => (false, s)
  | .page t =>
    let selection := Selection.select t id
    (selection.id.isSome, { s with selection })

def clearSelection (s : Session) : Session := { s with selection := {} }

def crumbs (s : Session) : List Crumb := (s.tree?.map s.selection.crumbs).getD []

/-- The nodes from the root down to a node. -/
def path (s : Session) (id : String) : List Node := (s.tree?.map (·.path id)).getD []

/-! ## Rendering -/

/-- Plays the animation of a node again and gives the new key of its view. -/
def replay (s : Session) (id : String) : Option UInt64 × Session :=
  match (s.tree?.bind (·.find? id)).bind (·.fields.animation) with
  | none => (none, s)
  | some _ =>
    let p := ((s.previews.get? id).getD {}).replay
    (some p.count, { s with previews := s.previews.insert id p })

/-- The view of the page; a text that is no page is shown as it is. -/
def render (s : Session) (r : Resolver) : View × Session :=
  match s.mode with
  | .page t =>
    let (v, queue) := t.render r s.previews s.queue
    (v, { s with queue })
  | .verbatim _ => (⟨[.text s.source], []⟩, s)

/-- Compiles components that wait. -/
def runIdle (s : Session) (r : Resolver) (budget : Budget) : IdleReport × Session × Resolver :=
  match s.mode with
  | .page t =>
    let (report, queue, cache) := s.queue.runIdle budget r.env r.cache t
    (report, { s with queue }, { r with cache })
  | .verbatim _ => (⟨[], 0⟩, s, r)

/-- Compiles and renders in turn, `rounds` times at most, until nothing waits. -/
def settleWithin (budget : Budget) : Nat → View → Session → Resolver → View × Session × Resolver
  | 0, v, s, r => (v, s, r)
  | rounds + 1, v, s, r =>
    if s.queue.isEmpty then (v, s, r)
    else
      let (report, s, r) := s.runIdle r budget
      if report.outcomes.isEmpty then (v, s, r)
      else
        let (v, s) := s.render r
        settleWithin budget rounds v s r

/-- The view when everything is compiled. Each round compiles one job at least, and no render after
the first one adds a job. -/
def settle (s : Session) (r : Resolver) (budget : Budget) : View × Session × Resolver :=
  let (v, s) := s.render r
  settleWithin budget s.queue.size v s r

end Session

end PageEditor
