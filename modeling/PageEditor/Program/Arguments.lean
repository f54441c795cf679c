import PageEditor.Decimal.Nearest

/-!
# Command lines

What the program is asked to do. A command line is the name of a command with options and words. An
option is written `--name value`, `--name=value`, `-n value`, `-nvalue` or `-n=value`, and comes once
at most; options without values may share one dash. What stands behind `--` is a word in any case.
Some options may stand before the command as well as behind it.
-/
set_option autoImplicit false

namespace PageEditor

/-! ## Options and words -/

structure OptionSpec where
  name : String
  short : Option Char := none
  hasValue : Bool := true
  deriving DecidableEq, Repr

/-- Options with their values, and words. -/
structure ParsedArgs where
  options : List (String × String) := []
  words : List String := []
  deriving DecidableEq, Repr

namespace ParsedArgs

def has (p : ParsedArgs) (name : String) : Bool := (p.options.lookup name).isSome

/-- Notes an option, which must be new. -/
def addOption (p : ParsedArgs) (name value : String) : Option ParsedArgs :=
  if p.has name then none else some { p with options := (name, value) :: p.options }

def addWord (p : ParsedArgs) (w : String) : ParsedArgs := { p with words := p.words ++ [w] }

end ParsedArgs

/-- Whether an argument cannot be a word; a single dash can. -/
def looksLikeOption (arg : String) : Bool :=
  match arg.toList with
  | '-' :: _ :: _ => true
  | _ => false

/-- Reads the options that share one dash. The second part of the result is the option that still
wants its value from the next argument. -/
def shortOptions (specs : List OptionSpec) (p : ParsedArgs) :
    List Char → Option (ParsedArgs × Option OptionSpec)
  | [] => some (p, none)
  | c :: cs => do
    let spec ← specs.find? (·.short == some c)
    if spec.hasValue then
      match cs with
      | [] => return (p, some spec)
      | '=' :: value => return (← p.addOption spec.name (String.ofList value), none)
      | value => return (← p.addOption spec.name (String.ofList value), none)
    else shortOptions specs (← p.addOption spec.name "") cs

/-- Reads one option. The result is as for `shortOptions`. -/
def readOption (specs : List OptionSpec) (p : ParsedArgs) (arg : List Char) :
    Option (ParsedArgs × Option OptionSpec) :=
  match arg with
  | '-' :: '-' :: cs => do
    let name := String.ofList (cs.takeWhile (· != '='))
    let spec ← specs.find? (·.name == name)
    match cs.dropWhile (· != '='), spec.hasValue with
    | [], true => return (p, some spec)
    | [], false => return (← p.addOption name "", none)
    | _ :: value, true => return (← p.addOption name (String.ofList value), none)
    | _ :: _, false => none
  | '-' :: cs => shortOptions specs p cs
  | _ => none

/-- Reads arguments to their end, or up to and with the first word if `oneWord` is set. -/
def readArgs (specs : List OptionSpec) (oneWord : Bool) (p : ParsedArgs) :
    List String → Option (ParsedArgs × List String)
  | [] => some (p, [])
  | arg :: rest =>
    if arg = "--" then
      if oneWord then none else some ({ p with words := p.words ++ rest }, [])
    else if looksLikeOption arg then
      match readOption specs p arg.toList with
      | none => none
      | some (p, none) => readArgs specs oneWord p rest
      | some (p, some spec) =>
        match rest with
        | [] => none
        | value :: rest =>
          if looksLikeOption value then none
          else
            match p.addOption spec.name value with
            | none => none
            | some p => readArgs specs oneWord p rest
    else if oneWord then some (p.addWord arg, rest)
    else readArgs specs oneWord (p.addWord arg) rest

/-! ## Values -/

namespace ParsedArgs

/-- The only word, which must not be empty. -/
def onlyWord (p : ParsedArgs) : Option String :=
  match p.words with
  | [w] => if w = "" then none else some w
  | _ => none

/-- All words, of which there must be one at least and none empty. -/
def allWords (p : ParsedArgs) : Option (List String) :=
  if p.words.isEmpty ∨ "" ∈ p.words then none else some p.words

/-- A path that may be left out; it must not be empty. -/
def path? (p : ParsedArgs) (name : String) : Option (Option String) :=
  match p.options.lookup name with
  | some "" => none
  | r => some r

def float (p : ParsedArgs) (name : String) : Option Float :=
  (p.options.lookup name).bind Decimal.ofText?

end ParsedArgs

/-- A natural number below 2⁶⁴, perhaps with a plus in front. -/
def readNat64? (s : String) : Option Nat :=
  let ds := match s.toList with
    | '+' :: ds => ds
    | ds => ds
  let n := Decimal.natOfDigits ds
  if !ds.isEmpty && ds.all Char.isDigit && n < 1 <<< 64 then some n else none

/-! ## Invocations -/

/-- What the program can do. -/
inductive Action
  | check (inputs : List String)
  | tree (input : String) (json : Bool)
  | roundtrip (inputs : List String) (pretty : Bool)
  | render (input : String) (firstPass : Bool) (budgetMs : Nat)
  | apply (input commands : String) (write : Bool) (output : Option String)
  | drop (input source target : String) (x y width height : Float) (write : Bool)

structure Invocation where
  action : Action
  verbose : Bool := false
  config : Option String := none

namespace Invocation

/-- The options that may stand anywhere. -/
def commonSpecs : List OptionSpec := [⟨"verbose", some 'v', false⟩, ⟨"config", none, true⟩]

/-- The options of a command. -/
def specs? : String → Option (List OptionSpec)
  | "check" => some []
  | "tree" => some [⟨"json", none, false⟩]
  | "roundtrip" => some [⟨"pretty", none, false⟩]
  | "render" => some [⟨"first-pass", none, false⟩, ⟨"budget-ms", none, true⟩]
  | "apply" =>
    some [⟨"commands", some 'c', true⟩, ⟨"write", some 'w', false⟩, ⟨"output", some 'o', true⟩]
  | "drop" =>
    some [⟨"source", none, true⟩, ⟨"target", none, true⟩, ⟨"x", none, true⟩, ⟨"y", none, true⟩,
      ⟨"width", none, true⟩, ⟨"height", none, true⟩, ⟨"write", some 'w', false⟩]
  | _ => none

/-- The action of a command with its options and words. -/
def action? (name : String) (p : ParsedArgs) : Option Action := do
  match name with
  | "check" => return .check (← p.allWords)
  | "tree" => return .tree (← p.onlyWord) (p.has "json")
  | "roundtrip" => return .roundtrip (← p.allWords) (p.has "pretty")
  | "render" =>
    let budget ← match p.options.lookup "budget-ms" with
      | none => some 50
      | some s => readNat64? s
    return .render (← p.onlyWord) (p.has "first-pass") budget
  | "apply" =>
    let output ← p.path? "output"
    if p.has "write" && output.isSome then none
    else return .apply (← p.onlyWord) (← ← p.path? "commands") (p.has "write") output
  | "drop" =>
    return .drop (← p.onlyWord) (← p.options.lookup "source") (← p.options.lookup "target")
      (← p.float "x") (← p.float "y") (← p.float "width") (← p.float "height") (p.has "write")
  | _ => none

/-- Understands a command line, or refuses it. -/
def ofArgs? (args : List String) : Option Invocation := do
  let (before, rest) ← readArgs commonSpecs true {} args
  match before.words with
  | [name] =>
    let (p, _) ← readArgs ((← specs? name) ++ commonSpecs) false {} rest
    let outer ← before.path? "config"
    let inner ← p.path? "config"
    return ⟨← action? name p, before.has "verbose" || p.has "verbose", inner.or outer⟩
  | _ => none

end Invocation

end PageEditor
