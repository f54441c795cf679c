import PageEditor.Program.Arguments
import PageEditor.Program.Difference
import PageEditor.Program.Files
import PageEditor.Program.Outline
import PageEditor.Program.Report
import PageEditor.Program.Script
import PageEditor.View.Json

/-!
# Running the program

The commands of the program as functions from the contents of files to an outcome: what is printed,
what is written to a file, and what went wrong.
-/
set_option autoImplicit false

namespace PageEditor

/-! ## Outcomes -/

/-- Why a command did not succeed. -/
inductive Failure
  | badConfig (path : String)
  | badScript (path : String)
  | unreadable (path : String)
  | unparsable (path : String) (e : ParseError)
  | notEditable (path : String) (e : ParseError)
  | failedChecks (failed total : Nat)
  | mismatches (count : Nat)
  | editingDisabled (e : EditingDisabled)
  | dropDisabled
  | dropRejected (e : EditError)
  | unwritable (e : FileError)
  deriving DecidableEq, Repr

def Failure.message : Failure → String
  | badConfig path => "Invalid configuration " ++ path
  | badScript path => "Invalid commands " ++ path
  | unreadable path => "Cannot read " ++ path
  | unparsable path e => path ++ ": " ++ e.message
  | notEditable path e => path ++ " did not parse: " ++ e.message
  | failedChecks failed total =>
    toString failed ++ " of " ++ toString total ++ " files failed to parse"
  | mismatches count => toString count ++ " files did not round-trip"
  | editingDisabled e => e.message
  | dropDisabled => "Source did not parse; drops are disabled"
  | dropRejected e => "Drop rejected: " ++ e.message
  | unwritable e => e.message

/-- A text for a file, and what is said once it has been written. -/
structure FileWrite where
  path : String
  text : String
  deriving DecidableEq, Repr

def FileWrite.notice (w : FileWrite) : String := "   Wrote " ++ w.path ++ "\n"

/-- What a command prints as its result and besides, what it writes, and whether it failed. -/
structure RunOutcome where
  output : String := ""
  log : String := ""
  write : Option FileWrite := none
  failure : Option Failure := none
  deriving DecidableEq, Repr

namespace RunOutcome

def print (o : RunOutcome) (s : String) : RunOutcome := { o with output := o.output ++ s }

def note (o : RunOutcome) (s : String) : RunOutcome := { o with log := o.log ++ s }

def fail (o : RunOutcome) (f : Failure) : RunOutcome := { o with failure := some f }

/-- Writes a text to a file, or prints it if there is none. -/
def deliver (o : RunOutcome) (text : String) : Option String → RunOutcome
  | some path => { o with write := some ⟨path, text⟩ }
  | none => o.print text

/-- What there is to say once a text has been written, or could not be. -/
def written (o : RunOutcome) (w : FileWrite) : Option FileError → RunOutcome
  | none => o.note w.notice
  | some e => o.fail (.unwritable e)

end RunOutcome

/-! ## Commands -/

/-- Where commands find their files. -/
structure Folder where
  path : String
  read : String → FileContent

namespace Folder

/-- The path and the text of an input. -/
def source (f : Folder) (input : String) : Except Failure (String × String) :=
  let path := joinPath f.path input
  match f.read path with
  | .text s => .ok (path, s)
  | _ => .error (.unreadable path)

/-- Says for each file whether it is a page. -/
def check (f : Folder) (total failed : Nat) (o : RunOutcome) : List String → RunOutcome
  | [] => if failed = 0 then o else o.fail (.failedChecks failed total)
  | input :: more =>
    match f.source input with
    | .error e => o.fail e
    | .ok (path, s) =>
      match Page.read s with
      | .ok p =>
        f.check total failed (o.print ("✓ " ++ path ++ " (" ++ toString p.tree.size ++ " nodes, "
          ++ toString p.imports.length ++ " imports)\n")) more
      | .error e =>
        f.check total (failed + 1)
          ((o.print ("✗ " ++ path ++ "\n")).note (e.report path s ++ "\n")) more

/-- Prints the nodes of a page, as an outline or as JSON. -/
def tree (f : Folder) (input : String) (json : Bool) : RunOutcome :=
  match f.source input with
  | .error e => RunOutcome.fail {} e
  | .ok (path, s) =>
    match Page.read s with
    | .error e => RunOutcome.fail {} (.unparsable path e)
    | .ok p =>
      RunOutcome.print {} (if json then p.tree.root.toJson.indentedText ++ "\n" else p.tree.outline)

/-- Says for each page whether it is printed as it was read. -/
def roundtrip (f : Folder) (pretty : Bool) (mismatches : Nat) (o : RunOutcome) :
    List String → RunOutcome
  | [] => if mismatches = 0 then o else o.fail (.mismatches mismatches)
  | input :: more =>
    match f.source input with
    | .error e => o.fail e
    | .ok (path, s) =>
      match Page.read s with
      | .error e => o.fail (.unparsable path e)
      | .ok p =>
        let again := if pretty then String.ofList p.tree.print else p.tree.regenerate s
        match Difference.first? s again with
        | none => f.roundtrip pretty mismatches (o.print ("✓ " ++ path ++ "\n")) more
        | some d =>
          f.roundtrip pretty (mismatches + 1)
            (o.print ("✗ " ++ path ++ " differs at line " ++ toString d.line ++ "\n   - "
              ++ d.expected ++ "\n   + " ++ d.found ++ "\n")) more

/-- Prints the view of a text as JSON, at once or when everything in it is compiled. -/
def render (f : Folder) (c : Config) (input : String) (firstPass : Bool) (budgetMs : Nat) :
    RunOutcome :=
  match f.source input with
  | .error e => RunOutcome.fail {} e
  | .ok (path, s) =>
    let session := Session.load s c.defaults
    let resolver : Resolver := ⟨c.environment, {}⟩
    let o : RunOutcome := match session.parseError? with
      | none => {}
      | some e =>
        RunOutcome.note {} ("⚠️ " ++ path ++ " did not parse (" ++ e.message
          ++ "), rendering raw text\n")
    let view :=
      if firstPass then (session.render resolver).1
      else (session.settle resolver (if budgetMs = 0 then .one else .all)).1
    o.print (view.toJson.indentedText ++ "\n")

/-- Carries out a script on a page. -/
def apply (f : Folder) (c : Config) (input commands : String) (write : Bool)
    (output : Option String) : RunOutcome :=
  match f.source input, f.source commands with
  | .error e, _ => RunOutcome.fail {} e
  | _, .error e => RunOutcome.fail {} e
  | .ok (path, s), .ok (scriptPath, script) =>
    match Script.ofText? script with
    | none => RunOutcome.fail {} (.badScript scriptPath)
    | some script =>
      let session := Session.load s c.defaults c.undoLevels.toNat
      match session.parseError? with
      | some e => RunOutcome.fail {} (.notEditable path e)
      | none =>
        match script.run session with
        | (.error e, log, _) => (RunOutcome.note {} log).fail (.editingDisabled e)
        | (.ok sum, log, session) =>
          let done := "\n✨ Done " ++ toString sum.applied ++ " applied, " ++ toString sum.rejected
            ++ " rejected, " ++ toString sum.edits ++ " edits\n"
          let target := match output with
            | some out => some (joinPath f.path out)
            | none => if write then some path else none
          (RunOutcome.note {} (log ++ done)).deliver session.save target

/-- Moves a node of a page to where a pointer has let it go over another one. -/
def drop (f : Folder) (c : Config) (input source target : String) (x y width height : Float)
    (write : Bool) : RunOutcome :=
  match f.source input with
  | .error e => RunOutcome.fail {} e
  | .ok (path, s) =>
    let position := c.dropZones.position x y width height
    match (Session.load s c.defaults).dispatch (.move source target position) with
    | (.error _, _) => RunOutcome.fail {} .dropDisabled
    | (.ok (.rejected e), _) => RunOutcome.fail {} (.dropRejected e)
    | (.ok (.applied _), session) =>
      (RunOutcome.note {} ("✓ Moved " ++ source ++ " " ++ position.name ++ " " ++ target ++ "\n")).deliver
        session.save (if write then some path else none)

end Folder

/-! ## Invocations -/

namespace Invocation

def defaultConfigName : String := "trellis.config.json"

/-- Where the configuration is looked for. -/
def configPath (i : Invocation) (folder : String) : String :=
  i.config.getD (joinPath folder defaultConfigName)

/-- The configuration in a file; the standard one if there is no such file. -/
def readConfig (path : String) : FileContent → Except Failure Config
  | .absent => .ok {}
  | .unreadable => .error (.badConfig path)
  | .text s =>
    match Config.ofText? s with
    | some c => .ok c
    | none => .error (.badConfig path)

def run (i : Invocation) (f : Folder) : RunOutcome :=
  let path := i.configPath f.path
  match readConfig path (f.read path) with
  | .error e => RunOutcome.fail {} e
  | .ok c =>
    match i.action with
    | .check inputs => f.check inputs.length 0 {} inputs
    | .tree input json => f.tree input json
    | .roundtrip inputs pretty => f.roundtrip pretty 0 {} inputs
    | .render input firstPass budget => f.render c input firstPass budget
    | .apply input commands write output => f.apply c input commands write output
    | .drop input source target x y width height write =>
      f.drop c input source target x y width height write

/-- Runs in a working folder that is held in memory. -/
def runOn (i : Invocation) (files : Files) : RunOutcome × Files :=
  let o := i.run ⟨".", files.read⟩
  match o.write with
  | none => (o, files)
  | some w =>
    match files.write w.path w.text with
    | .ok files => (o.written w none, files)
    | .error e => (o.written w (some e), files)

/-- The paths that are read in the course of a run. -/
def paths (i : Invocation) (folder : String) : List String :=
  let inputs := match i.action with
    | .check inputs => inputs
    | .tree input _ => [input]
    | .roundtrip inputs _ => inputs
    | .render input _ _ => [input]
    | .apply input commands _ _ => [input, commands]
    | .drop input _ _ _ _ _ _ _ => [input]
  i.configPath folder :: inputs.map (joinPath folder)

end Invocation

end PageEditor
