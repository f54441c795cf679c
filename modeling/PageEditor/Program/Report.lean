import PageEditor.Markup.Error
import PageEditor.Text.Blank
import PageEditor.Text.Lines
import PageEditor.Text.Width

/-!
# Error reports

An error in a text together with the lines where it is. The place is underlined and a label hangs
from its middle; a place of several lines is bracketed at the margin, with its inner lines left out,
and the label hangs from the last line.

Positions count characters here. A place that does not lie within the text is not shown.
-/
set_option autoImplicit false

namespace PageEditor

open Text (Line)

/-! ## Columns -/

/-- How many columns a character takes that is the `index`th of its line. A tab goes on to the next
multiple of four. -/
def cellWidth (index : Nat) (c : Char) : Nat :=
  if c = '\t' then 4 - index % 4
  else if Text.isBlank c then 1
  else Text.width c

/-- The text of a line as it is shown, without blanks at the end. -/
def shownChars (l : Line) : List Char := Text.trimEnd l.chars

def shownLine (l : Line) : String :=
  String.ofList <| ((shownChars l).mapIdx fun i c =>
    if Text.isBlank c then List.replicate (cellWidth i c) ' ' else [c]).flatten

/-- A row of `count` marks below a line, each as wide as the character above it. A mark is the
character that comes first and the one that fills the rest. -/
def markRow (l : Line) (count : Nat) (mark : Nat → Char × Char) : String :=
  let widths := ((shownChars l).mapIdx cellWidth).take count
  let all := widths ++ List.replicate (count - widths.length) 1
  String.ofList <| (all.mapIdx fun i width =>
    match width with
    | 0 => []
    | n + 1 => (mark i).1 :: List.replicate n (mark i).2).flatten

/-! ## Places -/

/-- A place in a text of known lines: the characters from `start` up to `stop`, which lie on the
lines with the indexes `first` to `last`. -/
structure ShownPlace where
  start : Nat
  stop : Nat
  first : Nat
  last : Nat
  deriving DecidableEq, Repr

namespace ShownPlace

/-- The index of the line with an offset; the end of the text belongs to the last line. -/
def lineIndex? (lines : List Line) (offset : Nat) : Option Nat :=
  if (lines.getLast?.map Line.stop).any (offset ≤ ·) then
    some ((lines.takeWhile fun l => l.start ≤ offset).length - 1)
  else none

def of? (lines : List Line) (start stop : Nat) : Option ShownPlace := do
  let first ← lineIndex? lines start
  let last ← if start < stop then lineIndex? lines (stop - 1) else some first
  return ⟨start, stop, first, last⟩

/-- The last character, or the first if there is none. -/
def lastOffset (p : ShownPlace) : Nat := max (p.stop - 1) p.start

/-- The column, counted from the start of a line, from which the label hangs. -/
def middle (p : ShownPlace) (l : Line) : Nat := max ((p.start + p.stop) / 2) p.start - l.start

end ShownPlace

/-! ## Reports -/

/-- What is said about a place. -/
structure Report where
  title : String
  name : String
  label : String
  start : Nat
  stop : Nat
  deriving DecidableEq, Repr

namespace Report

/-- The margin of a row, with a line's number or with a mark in its place. -/
def margin (digits : Nat) (number : Option Nat) (bar : String) : String :=
  let number := (number.map toString).getD ""
  " " ++ String.ofList (List.replicate (digits - number.length) ' ') ++ number ++ " " ++ bar ++ " "

/-- The rows below a line that holds the whole place: the underline, and the label. -/
def labelRows (r : Report) (digits : Nat) (p : ShownPlace) (l : Line) : List String :=
  let middle := p.middle l
  let count := p.stop - l.start + 2
  let under := fun i =>
    let inside := p.start ≤ l.start + i && l.start + i < p.stop
    if i = middle then if inside then ('┬', '─') else ('│', ' ')
    else if inside then ('─', '─')
    else (' ', ' ')
  let hook := fun i =>
    if i = middle then ('╰', '─') else if middle < i then ('─', '─') else (' ', ' ')
  let blank := margin digits none "│"
  [blank ++ markRow l count under, blank ++ markRow l count hook ++ " " ++ r.label]

/-- The rows of a place that lies on one line. -/
def inlineRows (r : Report) (digits : Nat) (p : ShownPlace) (l : Line) : List String :=
  if l.start ≤ p.start ∧ p.stop ≤ l.stop then
    (margin digits (some (p.first + 1)) "│" ++ shownLine l) :: r.labelRows digits p l
  else [margin digits none "│"]

/-- The rows of a line of a place of several lines. `skipped` says that the row before stands for
lines that are left out. -/
def bracketRows (r : Report) (digits : Nat) (p : ShownPlace) (skipped : Bool) (index : Nat) (l : Line) :
    List String :=
  let numbered := margin digits (some (index + 1)) "│"
  let blank := margin digits none "│"
  if l.contains p.start then [numbered ++ "╭─▶ " ++ shownLine l]
  else if l.contains p.lastOffset then
    let count := l.chars.length + 2
    [numbered ++ "├─▶ " ++ shownLine l, blank ++ "│   " ++ markRow l count fun _ => (' ', ' '),
      blank ++ "╰───" ++ (markRow l count fun _ => ('─', '─')) ++ " " ++ r.label]
  else if skipped then []
  else [margin digits none "┆" ++ "┆   "]

/-- The rows of the lines of a place of several lines. -/
def bracket (r : Report) (digits : Nat) (p : ShownPlace) (skipped : Bool) (index : Nat) :
    List Line → List String
  | [] => []
  | l :: ls =>
    r.bracketRows digits p skipped index l
      ++ r.bracket digits p (!l.contains p.start && !l.contains p.lastOffset) (index + 1) ls

/-- The report on a text. -/
def text (r : Report) (source : String) : String :=
  let lines := Text.lines source.toList
  let head := "Error: " ++ r.title
  let rows := match ShownPlace.of? lines r.start r.stop with
    | none => [head]
    | some p =>
      let here := (lines.drop p.first).take (p.last + 1 - p.first)
      let digits := (toString (p.last + 1)).length
      let indent := String.ofList (List.replicate (digits + 2) ' ')
      let column := p.start - ((here.head?.map Line.start).getD 0) + 1
      [head, indent ++ "╭─[" ++ r.name ++ ":" ++ toString (p.first + 1) ++ ":" ++ toString column
        ++ "]", indent ++ "│"]
      ++ (match here with
        | [l] => r.inlineRows digits p l
        | ls => r.bracket digits p false p.first ls)
      ++ [String.ofList (List.replicate (digits + 2) '─') ++ "╯"]
  String.join (rows.map (· ++ "\n"))

end Report

/-- The report on an error. The byte positions of the error are taken for characters. An error at
the end of the text is shown at its last position. -/
def ParseError.report (e : ParseError) (name source : String) : String :=
  let size := source.utf8ByteSize
  let s := e.span?.getD ⟨size - 1, size⟩
  Report.text ⟨e.message, name, e.label, s.start, s.stop⟩ source

end PageEditor
