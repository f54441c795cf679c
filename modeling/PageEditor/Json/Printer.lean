import PageEditor.Json.Basic
import PageEditor.Decimal.Shortest
import PageEditor.Text.Hex

/-!
# JSON texts

How values are written: without blanks, or spread over indented lines. Quotes, backslashes and
control characters are escaped, every other character stands for itself.
-/
set_option autoImplicit false

namespace PageEditor.Json

open Decimal (Binary Digits)
open Text (hexDigit)

/-! ## Numbers -/

/-- How many digits a decimal has in front of its point, when its digits are read as a whole. -/
def pointAt (digits : Nat) (exponent : Int) : Int := digits + exponent

/-- Writes a positive decimal: with a point when its first digit counts at least `10 ^ -5` and less
than `10 ^ 16`, else with a signed power of ten. A whole number ends in `.0`. -/
def decimalText (d : Digits) : List Char :=
  let ds := (toString d.digits).toList
  let point := pointAt ds.length d.exponent
  if -5 < point ∧ point ≤ 16 then
    if point ≤ 0 then ['0', '.'] ++ List.replicate (-point).toNat '0' ++ ds
    else if point < ds.length then ds.take point.toNat ++ '.' :: ds.drop point.toNat
    else ds ++ List.replicate (point.toNat - ds.length) '0' ++ ['.', '0']
  else
    let power := point - 1
    let mantissa := match ds with
      | [] => []
      | [c] => [c]
      | c :: more => c :: '.' :: more
    mantissa ++ 'e' :: (if 0 ≤ power then '+' else '-') :: (toString power.natAbs).toList

/-- Writes a finite double by its shortest digits. -/
def doubleText (x : Float) : List Char :=
  let bits := x.toBits
  let sign := if bits.toNat >>> 63 = 1 then ['-'] else []
  let b := Binary.ofBits bits
  sign ++ if b.significand = 0 then ['0', '.', '0'] else decimalText (Decimal.shortest b)

def numberText : Number → List Char
  | .integer n => (toString n).toList
  | .double x => doubleText x

/-! ## Strings -/

/-- How one character is written inside quotes. -/
def escape (c : Char) : List Char :=
  if c = '"' then ['\\', '"']
  else if c = '\\' then ['\\', '\\']
  else if c = '\n' then ['\\', 'n']
  else if c = '\r' then ['\\', 'r']
  else if c = '\t' then ['\\', 't']
  else if c.toNat = 8 then ['\\', 'b']
  else if c.toNat = 12 then ['\\', 'f']
  else if c.toNat < 32 then
    ['\\', 'u', '0', '0', hexDigit (c.toNat / 16), hexDigit (c.toNat % 16)]
  else [c]

/-- A text between quotes. -/
def quote (cs : List Char) : List Char :=
  '"' :: cs.flatMap escape ++ ['"']

def quoteText (s : String) : String := String.ofList (quote s.toList)

/-! ## Compact texts -/

mutual

/-- Writes a value without blanks. -/
def compact : Json → List Char
  | null => "null".toList
  | bool true => "true".toList
  | bool false => "false".toList
  | number n => numberText n
  | string s => quote s.toList
  | array items => '[' :: compactItems items
  | object members => '\x7b' :: compactMembers members
  | unreadable => "null".toList

/-- The items of an array and the bracket behind them. -/
def compactItems : List Json → List Char
  | [] => [']']
  | v :: vs => compact v ++ compactMoreItems vs

def compactMoreItems : List Json → List Char
  | [] => [']']
  | v :: vs => ',' :: compact v ++ compactMoreItems vs

def compactMembers : List (String × Json) → List Char
  | [] => ['\x7d']
  | (k, v) :: ms => quote k.toList ++ ':' :: compact v ++ compactMoreMembers ms

def compactMoreMembers : List (String × Json) → List Char
  | [] => ['\x7d']
  | (k, v) :: ms => ',' :: quote k.toList ++ ':' :: compact v ++ compactMoreMembers ms

end

/-- The compact text of a value. -/
def text (v : Json) : String := String.ofList v.compact

/-! ## Indented texts -/

def newLine (depth : Nat) : List Char := '\n' :: List.replicate (2 * depth) ' '

mutual

/-- Writes a value over several lines; an empty array or object stays on its line. -/
def indented (depth : Nat) : Json → List Char
  | array (v :: vs) => '[' :: newLine (depth + 1) ++ indented (depth + 1) v ++ indentedItems depth vs
  | object ((k, v) :: ms) =>
    '\x7b' :: newLine (depth + 1) ++ quote k.toList ++ ':' :: ' ' :: indented (depth + 1) v
      ++ indentedMembers depth ms
  | array [] => ['[', ']']
  | object [] => ['\x7b', '\x7d']
  | null => "null".toList
  | bool true => "true".toList
  | bool false => "false".toList
  | number n => numberText n
  | string s => quote s.toList
  | unreadable => "null".toList

def indentedItems (depth : Nat) : List Json → List Char
  | [] => newLine depth ++ [']']
  | v :: vs => ',' :: newLine (depth + 1) ++ indented (depth + 1) v ++ indentedItems depth vs

def indentedMembers (depth : Nat) : List (String × Json) → List Char
  | [] => newLine depth ++ ['\x7d']
  | (k, v) :: ms =>
    ',' :: newLine (depth + 1) ++ quote k.toList ++ ':' :: ' ' :: indented (depth + 1) v
      ++ indentedMembers depth ms

end

/-- The indented text of a value. -/
def indentedText (v : Json) : String := String.ofList (v.indented 0)

end PageEditor.Json
