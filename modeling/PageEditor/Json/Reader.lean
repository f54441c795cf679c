import PageEditor.Json.Basic
import PageEditor.Decimal.Scaled
import PageEditor.Text.Hex

/-!
# Reading JSON texts

`Json.read?` reads a text that holds one value and blanks around it. The reader is one loop over
the text with a stack of the arrays and objects that are still open, so every step moves forward.
-/
set_option autoImplicit false
set_option linter.unusedVariables false

namespace PageEditor.Json

open Decimal (Numeral)
open Text (hexValue?)

/-! ## Blanks and words -/

def isSpace (c : Char) : Bool :=
  c == ' ' || c == '\n' || c == '\t' || c == '\r'

def skipSpace (cs : List Char) : List Char := cs.dropWhile isSpace

theorem skipSpace_length_le (cs : List Char) : (skipSpace cs).length ≤ cs.length :=
  (List.dropWhile_sublist _).length_le

/-- The text behind a word, if it starts with it. -/
def stripWord (word cs : List Char) : Option (List Char) :=
  if word.isPrefixOf cs then some (cs.drop word.length) else none

theorem stripWord_length_le {word cs r : List Char} (h : stripWord word cs = some r) :
    r.length ≤ cs.length := by
  simp only [stripWord] at h
  split at h
  · cases h
    simp only [List.length_drop]
    omega
  · cases h

/-! ## Strings -/

/-- The number that four hexadecimal digits denote. -/
def hexFour? (a b c d : Char) : Option Nat := do
  let a ← hexValue? a
  let b ← hexValue? b
  let c ← hexValue? c
  let d ← hexValue? d
  return ((a * 16 + b) * 16 + c) * 16 + d

/-- The character that a letter behind a backslash stands for. -/
def unescape? (c : Char) : Option Char :=
  if c = '"' then some '"'
  else if c = '\\' then some '\\'
  else if c = '/' then some '/'
  else if c = 'b' then some (Char.ofNat 8)
  else if c = 'f' then some (Char.ofNat 12)
  else if c = 'n' then some '\n'
  else if c = 'r' then some '\r'
  else if c = 't' then some '\t'
  else none

def isHighHalf (n : Nat) : Bool := 0xD800 ≤ n && n < 0xDC00

def isLowHalf (n : Nat) : Bool := 0xDC00 ≤ n && n < 0xE000

/-- The character of a surrogate pair. -/
def joinHalves (high low : Nat) : Char :=
  Char.ofNat (0x10000 + (high - 0xD800) * 0x400 + (low - 0xDC00))

/-- Puts a character in front of a text that may not denote one. -/
def push (c : Char) (r : Option (List Char) × List Char) : Option (List Char) × List Char :=
  (r.1.map (c :: ·), r.2)

/-- Reads up to the closing quote; `high` is a high surrogate that waits for its other half. The
content is `none` when some half stays alone, the whole result when the text is no string. -/
def stringBody (high : Option Nat) : List Char → Option (Option (List Char) × List Char)
  | [] => none
  | '\\' :: 'u' :: a :: b :: c :: d :: r =>
    match hexFour? a b c d with
    | none => none
    | some n =>
      match high with
      | some h =>
        if isLowHalf n then (stringBody none r).map (push (joinHalves h n))
        else (stringBody none r).map fun p => (none, p.2)
      | none =>
        if isHighHalf n then stringBody (some n) r
        else if isLowHalf n then (stringBody none r).map fun p => (none, p.2)
        else (stringBody none r).map (push (Char.ofNat n))
  | c :: r =>
    if high.isSome then
      -- The waiting half stays alone, so the content is lost whatever follows.
      if c = '"' then some (none, r)
      else if c = '\\' then
        match r with
        | [] => none
        | e :: r => if (unescape? e).isSome then (stringBody none r).map fun p => (none, p.2) else none
      else if c.toNat < 32 then none
      else (stringBody none r).map fun p => (none, p.2)
    else if c = '"' then some (some [], r)
    else if c = '\\' then
      match r with
      | [] => none
      | e :: r =>
        match unescape? e with
        | none => none
        | some x => (stringBody none r).map (push x)
    else if c.toNat < 32 then none
    else (stringBody none r).map (push c)

theorem stringBody_length_lt {high : Option Nat} {cs : List Char}
    {p : Option (List Char) × List Char} (h : stringBody high cs = some p) :
    p.2.length < cs.length := by
  fun_induction stringBody high cs generalizing p <;>
    simp_all only [Option.map_eq_some_iff, reduceCtorEq, Option.some.injEq, List.length_cons] <;>
    first
    | (obtain ⟨q, hq, rfl⟩ := h; grind [push])
    | grind

/-! ## Numbers -/

/-- Reads digits after a point, at least one. -/
def fraction? : List Char → Option (Option (List Char) × List Char)
  | '.' :: r =>
    if (Decimal.spanDigits r).1.isEmpty then none
    else some (some (Decimal.spanDigits r).1, (Decimal.spanDigits r).2)
  | cs => some (none, cs)

/-- Reads a power of ten, if there is one. -/
def power? : List Char → Option (Option (Bool × List Char) × List Char)
  | c :: r =>
    if c = 'e' ∨ c = 'E' then
      if (Decimal.spanDigits (Decimal.dropSign r)).1.isEmpty then none
      else
        some (some (r.head? == some '-', (Decimal.spanDigits (Decimal.dropSign r)).1),
          (Decimal.spanDigits (Decimal.dropSign r)).2)
    else some (none, c :: r)
  | [] => some (none, [])

/-- Reads a number without its sign; a zero in front stands alone. -/
def numeral? (negative : Bool) (cs : List Char) : Option (Numeral × List Char) := do
  let whole := (Decimal.spanDigits cs).1
  if whole.isEmpty || (whole.head? == some '0' && 1 < whole.length) then none
  let (fraction, r) ← fraction? (Decimal.spanDigits cs).2
  let (power, r) ← power? r
  return (⟨negative, whole, fraction, power⟩, r)

/-- What a literal denotes. A literal without point and power is an integer if it fits 64 bits; the
negative zero is none. -/
def ofNumeral (n : Numeral) : Json :=
  let (s, used) := Decimal.gather 0 n.whole
  if n.isWhole ∧ used = n.whole.length ∧ (if n.negative then 0 < s ∧ s ≤ 1 <<< 63 else True) then
    number (.integer (if n.negative then -(s : Int) else s))
  else
    match n.toFloat with
    | some x => number (.double x)
    | none => unreadable

theorem spanDigits_length_le (cs : List Char) : (Decimal.spanDigits cs).2.length ≤ cs.length :=
  (List.dropWhile_sublist _).length_le

theorem spanDigits_length_lt {cs : List Char} (h : (Decimal.spanDigits cs).1.isEmpty = false) :
    (Decimal.spanDigits cs).2.length < cs.length := by
  have e := congrArg List.length (List.takeWhile_append_dropWhile (p := Char.isDigit) (l := cs))
  simp only [List.length_append] at e
  have h1 : 0 < (Decimal.spanDigits cs).1.length := by
    simpa [List.length_pos_iff] using h
  simp only [Decimal.spanDigits] at h1 ⊢
  omega

theorem dropSign_length_le (cs : List Char) : (Decimal.dropSign cs).length ≤ cs.length := by
  unfold Decimal.dropSign
  split <;> simp

theorem fraction?_length_le {cs : List Char} {p : Option (List Char) × List Char}
    (h : fraction? cs = some p) : p.2.length ≤ cs.length := by
  unfold fraction? at h
  split at h
  · split at h
    · cases h
    · cases h
      exact Nat.le_succ_of_le (spanDigits_length_le _)
  · cases h
    exact Nat.le_refl _

theorem power?_length_le {cs : List Char} {p : Option (Bool × List Char) × List Char}
    (h : power? cs = some p) : p.2.length ≤ cs.length := by
  unfold power? at h
  split at h
  · split at h
    · split at h
      · cases h
      · cases h
        exact Nat.le_succ_of_le (Nat.le_trans (spanDigits_length_le _) (dropSign_length_le _))
    · cases h
      exact Nat.le_refl _
  · cases h
    exact Nat.le_refl _

theorem numeral?_length_lt {negative : Bool} {cs : List Char} {p : Numeral × List Char}
    (h : numeral? negative cs = some p) : p.2.length < cs.length := by
  simp only [numeral?] at h
  split at h
  · cases h
  · rename_i hw
    simp only [Option.bind_eq_bind, Option.bind_eq_some_iff, Option.pure_def, Option.some.injEq] at h
    obtain ⟨q, hq, q', hq', rfl⟩ := h
    simp only [Bool.or_eq_true, not_or, Bool.not_eq_true] at hw
    exact Nat.lt_of_le_of_lt (power?_length_le hq')
      (Nat.lt_of_le_of_lt (fraction?_length_le hq) (spanDigits_length_lt hw.1))

/-! ## Values -/

/-- Reads a value that is neither array nor object. -/
def scalar? (cs : List Char) : Option (Json × List Char) :=
  match cs with
  | 'n' :: r => (stripWord "ull".toList r).map (null, ·)
  | 't' :: r => (stripWord "rue".toList r).map (bool true, ·)
  | 'f' :: r => (stripWord "alse".toList r).map (bool false, ·)
  | '"' :: r =>
    (stringBody none r).map fun p =>
      (match p.1 with
        | some content => string (String.ofList content)
        | none => unreadable, p.2)
  | '-' :: r => (numeral? true r).map fun p => (ofNumeral p.1, p.2)
  | c :: r => if c.isDigit then (numeral? false (c :: r)).map fun p => (ofNumeral p.1, p.2) else none
  | [] => none

/-- An array or object that is still open, its contents read so far from the back. An object waits
for the value of `key`; `none` is a key that denotes nothing, and so does the object then. -/
inductive Frame
  | array (items : List Json)
  | object (members : List (Option String × Json)) (key : Option String)

/-- An object from its members; a key that denotes nothing makes it unreadable. -/
def ofMembers (ms : List (Option String × Json)) : Json :=
  match ms.mapM fun m => m.1.map (·, m.2) with
  | some ms => object ms
  | none => unreadable

/-- Reads a key and the colon behind it. -/
def key? (cs : List Char) : Option (Option String × List Char) :=
  match skipSpace cs with
  | '"' :: r => do
    let (content, r) ← stringBody none r
    match skipSpace r with
    | ':' :: r => some (content.map String.ofList, r)
    | _ => none
  | _ => none

theorem key?_length_lt {cs : List Char} {p : Option String × List Char} (h : key? cs = some p) :
    p.2.length < cs.length := by
  unfold key? at h
  have h0 := skipSpace_length_le cs
  split at h
  · rename_i r hr
    simp only [Option.bind_eq_bind, Option.bind_eq_some_iff] at h
    obtain ⟨q, hq, h⟩ := h
    have h1 := stringBody_length_lt hq
    have h2 := skipSpace_length_le q.2
    split at h
    · rename_i r' hr'
      cases h
      simp only [hr, hr', List.length_cons] at h0 h2
      simp only
      omega
    · cases h
  · cases h

theorem scalar?_length_lt {cs : List Char} {p : Json × List Char} (h : scalar? cs = some p) :
    p.2.length < cs.length := by
  unfold scalar? at h
  split at h
  all_goals try simp only [Option.map_eq_some_iff] at h
  · obtain ⟨r, hr, rfl⟩ := h
    exact Nat.lt_succ_of_le (stripWord_length_le hr)
  · obtain ⟨r, hr, rfl⟩ := h
    exact Nat.lt_succ_of_le (stripWord_length_le hr)
  · obtain ⟨r, hr, rfl⟩ := h
    exact Nat.lt_succ_of_le (stripWord_length_le hr)
  · obtain ⟨r, hr, rfl⟩ := h
    exact Nat.lt_succ_of_lt (stringBody_length_lt hr)
  · obtain ⟨r, hr, rfl⟩ := h
    exact Nat.lt_succ_of_lt (numeral?_length_lt hr)
  · split at h
    · simp only [Option.map_eq_some_iff] at h
      obtain ⟨q, hq, rfl⟩ := h
      exact numeral?_length_lt hq
    · cases h
  · cases h

mutual

/-- Reads a value; `frames` are the arrays and objects around it, innermost first. -/
def valueWithin (frames : List Frame) (cs : List Char) : Option (Json × List Char) :=
  match h : skipSpace cs with
  | '[' :: r =>
    match h' : skipSpace r with
    | ']' :: r' => afterValue frames (array []) r'
    | _ => valueWithin (.array [] :: frames) r
  | '\x7b' :: r =>
    match h' : skipSpace r with
    | '\x7d' :: r' => afterValue frames (object []) r'
    | _ =>
      match h'' : key? r with
      | some (key, r') => valueWithin (.object [] key :: frames) r'
      | none => none
  | other =>
    match h' : scalar? other with
    | some (v, r) => afterValue frames v r
    | none => none
termination_by cs.length
decreasing_by
  all_goals
    have h0 := skipSpace_length_le cs
    simp only [h, List.length_cons] at h0
  · have h1 := skipSpace_length_le r
    simp only [h', List.length_cons] at h1
    omega
  · omega
  · have h1 := skipSpace_length_le r
    simp only [h', List.length_cons] at h1
    omega
  · have h1 := key?_length_lt h''
    simp only at h1
    omega
  · have h1 := scalar?_length_lt h'
    simp only at h1
    omega

/-- Goes on behind the value `v`. -/
def afterValue (frames : List Frame) (v : Json) (cs : List Char) : Option (Json × List Char) :=
  match frames with
  | [] => some (v, cs)
  | .array items :: frames =>
    match h : skipSpace cs with
    | ',' :: r => valueWithin (.array (v :: items) :: frames) r
    | ']' :: r => afterValue frames (array (v :: items).reverse) r
    | _ => none
  | .object members key :: frames =>
    match h : skipSpace cs with
    | ',' :: r =>
      match h' : key? r with
      | some (next, r') => valueWithin (.object ((key, v) :: members) next :: frames) r'
      | none => none
    | '\x7d' :: r => afterValue frames (ofMembers ((key, v) :: members).reverse) r
    | _ => none
termination_by cs.length
decreasing_by
  all_goals
    have h0 := skipSpace_length_le cs
    simp only [h, List.length_cons] at h0
  · omega
  · omega
  · have h1 := key?_length_lt h'
    simp only at h1
    omega
  · omega

end

/-- The value that a text holds. -/
def read? (cs : List Char) : Option Json :=
  match valueWithin [] cs with
  | some (v, r) => if (skipSpace r).isEmpty then some v else none
  | none => none

end PageEditor.Json
