/-!
# White space

The characters that count as blank, and texts without the blank characters at their ends.
-/
set_option autoImplicit false

namespace PageEditor.Text

/-! ## The blank characters -/

/-- Exactly the characters with the Unicode property `White_Space`. -/
def isBlank (c : Char) : Bool :=
  let n := c.toNat
  (9 ≤ n && n ≤ 13) || n == 0x20 || n == 0x85 || n == 0xA0 || n == 0x1680
    || (0x2000 ≤ n && n ≤ 0x200A) || n == 0x2028 || n == 0x2029 || n == 0x202F
    || n == 0x205F || n == 0x3000

/-! ## Trimming -/

/-- Drops the blank characters in front. -/
def trimStart (cs : List Char) : List Char :=
  cs.dropWhile isBlank

/-- Drops the blank characters behind. -/
def trimEnd (cs : List Char) : List Char :=
  (cs.reverse.dropWhile isBlank).reverse

/-- Drops the blank characters on both sides. -/
def trim (cs : List Char) : List Char :=
  trimEnd (trimStart cs)

/-- The blank characters in front, which `trimStart` drops. -/
def leading (cs : List Char) : List Char :=
  cs.takeWhile isBlank

theorem leading_append_trimStart (cs : List Char) : leading cs ++ trimStart cs = cs :=
  List.takeWhile_append_dropWhile

/-! ## Words -/

/-- The words of a text behind the characters in `word`, which come last one first. -/
def wordsFrom (word : List Char) : List Char → List (List Char)
  | [] => if word.isEmpty then [] else [word.reverse]
  | c :: cs =>
    if isBlank c then (if word.isEmpty then [] else [word.reverse]) ++ wordsFrom [] cs
    else wordsFrom (c :: word) cs

/-- The longest pieces without blank characters. -/
def words (s : String) : List String := (wordsFrom [] s.toList).map String.ofList

end PageEditor.Text
