import PageEditor.Edit.Session
import PageEditor.Program.Config

/-!
# Scripts

Commands and property edits that are carried out one after the other without a user. A script is a
list of commands, or an object that holds commands and edits.
-/
set_option autoImplicit false

namespace PageEditor

/-! ## Scripts -/

structure Script where
  commands : List Command := []
  edits : List PropertyEdit := []

namespace Script

def ofJson? (v : Json) : Option Script := do
  guard v.isSound
  let command? := Command.ofJson? true
  match v with
  | .array items => return { commands := ← items.mapM command? }
  | .object _ =>
    let list? := fun {α : Type} (f : Json → Option α) => Json.list? Json.depthLimit fun _ => f
    match ← v.fields? ["commands", "edits"] with
    | [commands, edits] =>
      return {
        commands := ← Json.optional? [] (list? command?) commands
        edits := ← Json.optional? [] (list? (PropertyEdit.ofJson? true)) edits }
    | _ => none
  | _ => none

/-- The script that a text holds. -/
def ofText? (s : String) : Option Script := (Json.read? s.toList).bind ofJson?

/-! ## Running -/

/-- How many commands were carried out and rejected, and how many edits were written. -/
structure Summary where
  applied : Nat := 0
  rejected : Nat := 0
  edits : Nat := 0
  deriving DecidableEq, Repr

/-- The line that a log has for a command. -/
def logLine (c : Command) : Response → String
  | .applied _ => "✓ " ++ c.describe ++ "\n"
  | .rejected e => "✗ " ++ c.describe ++ ": " ++ e.message ++ "\n"

/-- Carries commands out until editing turns out to be disabled; collects the log. -/
def runCommands (s : Session) (sum : Summary) (log : String) :
    List Command → Except EditingDisabled Summary × String × Session
  | [] => (.ok sum, log, s)
  | c :: cs =>
    match s.dispatch c with
    | (.error e, s) => (.error e, log, s)
    | (.ok r, s) =>
      let sum := match r with
        | .applied _ => { sum with applied := sum.applied + 1 }
        | .rejected _ => { sum with rejected := sum.rejected + 1 }
      runCommands s sum (log ++ logLine c r) cs

/-- Carries a script out: the commands, and then the edits as one step. Edits to the same field
count once, with the last value. -/
def run (sc : Script) (s : Session) : Except EditingDisabled Summary × String × Session :=
  match runCommands s {} "" sc.commands with
  | (.error e, log, s) => (.error e, log, s)
  | (.ok sum, log, s) =>
    if sc.edits.isEmpty then (.ok sum, log, s)
    else
      let drafts := sc.edits.foldl (fun p e => p.stage e 0) ({} : Pending)
      match s.commit drafts.flushAll.1 with
      | (.error e, s) => (.error e, log, s)
      | (.ok n, s) => (.ok { sum with edits := n }, log, s)

end Script

end PageEditor
