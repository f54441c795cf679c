import PageEditor.Proofs.Markup.Tags

/-!
# Reading by offsets

A reader of markup holds the text that it still has to read, so it cannot lose its place. The readers
here know the whole text and an offset. They cut the text anew at every step, with a cut that fails
where a span leaves the text or splits a character, and every loop has a number of rounds that it can
use up. They are shown to do what the readers of markup do: no cut fails and no loop runs out.
-/
set_option autoImplicit false

namespace PageEditor

open Cursor

/-! ## Stopping -/

/-- Why a reader of offsets stops: it cut where it may not, a loop used up its rounds, or the text is
refused. -/
inductive Stop
  | outside
  | exhausted
  | refused (e : ParseError)
  deriving DecidableEq, Repr

def Span.Inside (source : List Char) (s : Span) : Prop :=
  s.start ≤ s.stop ∧ s.stop ≤ Text.byteLength source

/-- The place of the error, if it has one, is in the text. -/
def ParseError.Inside (source : List Char) (e : ParseError) : Prop :=
  ∀ s, e.span? = some s → s.Inside source

/-- A reader of offsets that gives `y` does what a reader of markup does that gives `x`: it gives the
same up to `f`, or refuses the text for the same reason, which is found in the text. -/
structure Follows {α β : Type} (source : List Char) (f : α → β) (x : Except ParseError α)
    (y : Except Stop β) : Prop where
  same : y = (x.map f).mapError .refused
  inside : ∀ e, x = .error e → e.Inside source

namespace Follows

variable {α β γ δ : Type} {source : List Char} {f : α → β} {g : γ → δ}

theorem ok (a : α) : Follows source f (.ok a) (.ok (f a)) :=
  ⟨rfl, by rintro e ⟨⟩⟩

theorem error {e : ParseError} (h : e.Inside source) :
    Follows source f (.error e) (.error (.refused e)) :=
  ⟨rfl, by rintro _ ⟨⟩; exact h⟩

theorem bind {x : Except ParseError α} {y : Except Stop β} {k : α → Except ParseError γ}
    {k' : β → Except Stop δ} (h : Follows source f x y)
    (hk : ∀ a, x = .ok a → Follows source g (k a) (k' (f a))) :
    Follows source g (x >>= k) (y >>= k') := by
  obtain ⟨rfl, hinside⟩ := h
  cases x with
  | error e => exact error (hinside e rfl)
  | ok a => exact hk a rfl

theorem map {x : Except ParseError α} {y : Except Stop δ} {k : α → γ}
    (h : Follows source (fun a => g (k a)) x y) : Follows source g (x >>= fun a => pure (k a)) y := by
  obtain ⟨rfl, hinside⟩ := h
  cases x with
  | error e => exact error (hinside e rfl)
  | ok a => exact ok (k a)

theorem ite {p : Prop} [Decidable p] {x x' : Except ParseError α} {y y' : Except Stop β}
    (h : p → Follows source f x y) (h' : ¬ p → Follows source f x' y') :
    Follows source f (if p then x else x') (if p then y else y') := by
  by_cases hp : p
  · rw [if_pos hp, if_pos hp]
    exact h hp
  · rw [if_neg hp, if_neg hp]
    exact h' hp

end Follows

/-! ## Cuts -/

namespace Checked

/-- The text of a span. -/
def cut (source : List Char) (s : Span) : Except Stop (List Char) :=
  match Text.slice source s with
  | some x => .ok x
  | none => .error .outside

/-- The place at an offset, with the text from there on cut out. -/
def seek (source : List Char) (pos : Nat) : Except Stop Cursor := do
  let rest ← cut source ⟨pos, Text.byteLength source⟩
  return ⟨pos, rest⟩

section Cuts

variable {source x : List Char} {s : Span} {c d : Cursor}

theorem cut_of_slice (h : Text.slice source s = some x) : cut source s = .ok x := by
  rw [cut, h]

theorem cut_of_leads (hc : (ofText source).Leads c) (h : c.Leads d) :
    cut source ⟨c.offset, d.offset⟩ = .ok (c.upTo d) :=
  cut_of_slice (slice_of_leads hc h)

theorem seek_of_leads (hc : (ofText source).Leads c) : seek source c.offset = .ok c := by
  rw [seek, cut_of_slice (slice_rest hc)]
  rfl

theorem inside_of_leads (hc : (ofText source).Leads c) (h : c.Leads d) :
    (c.span d).Inside source := by
  have hslice := slice_of_leads hc h
  obtain ⟨_, hback⟩ := Text.slice_back hslice
  exact ⟨Text.le_of_slice hslice, Text.le_of_slice hback⟩

end Cuts

/-- How many rounds a loop over the text may take. -/
def rounds (source : List Char) : Nat := source.length + 1

theorem lt_rounds {source : List Char} {c : Cursor} (hc : (ofText source).Leads c) :
    c.rest.length < rounds source :=
  Nat.lt_succ_of_le hc.length_le

/-! ## Tokens -/

/-- What is kept of a token that was read: the token, its span and the offset behind it. -/
def word (l : Lexeme) : Token × Span × Nat := (l.token, l.span, l.next.offset)

section Tokens

variable (source : List Char)

def next (pos : Nat) (expected : Expectation) : Except Stop (Token × Span × Nat) := do
  let c ← seek source pos
  ((c.next expected).map word).mapError .refused

def peek? (pos : Nat) : Except Stop (Option (Token × Span × Nat)) := do
  let c ← seek source pos
  return c.peek?.map word

def comesNext (pos : Nat) (t : Token) : Except Stop Bool := do
  let w ← peek? source pos
  return w.any (·.1 == t)

def skip (pos : Nat) (t : Token) : Except Stop Nat := do
  match ← peek? source pos with
  | some (u, _, behind) => return if u = t then behind else pos
  | none => return pos

def expect (pos : Nat) (t : Token) (expected : Expectation) : Except Stop Nat := do
  let (u, s, behind) ← next source pos expected
  if u = t then return behind else throw (.refused (.unexpectedToken s expected u))

def ident (pos : Nat) (expected : Expectation) : Except Stop (String × Nat) := do
  let (t, s, behind) ← next source pos expected
  match t with
  | .ident name => return (name, behind)
  | t => throw (.refused (.unexpectedToken s expected t))

def keyword (pos : Nat) (name : String) : Except Stop Nat :=
  expect source pos (.ident name) (.keyword name)

/-- The token of a span, the body of a string being cut out between its quotes. -/
def unquoted (t : Token) (s : Span) : Except Stop Token :=
  match t with
  | .string quote _ => do
    let body ← cut source ⟨s.start + 1, s.stop - 1⟩
    return .string quote (String.ofList body)
  | t => return t

end Tokens

section Tokens

variable {source : List Char} {c d : Cursor} {t : Token} {s : Span}

/-- What is read is told by its own span, which begins behind the blanks. -/
theorem span_of_lex (h : c.lex = .token t s d) : s = c.skipSpace.span d ∧ c.skipSpace.Leads d := by
  simp only [lex] at h
  split at h
  · cases h
  · split at h
    · cases h
      exact ⟨rfl, leads_advance _ _⟩
    · cases h

theorem span_of_invalid (h : c.lex = .invalid s d) : s = c.skipSpace.span d ∧ c.skipSpace.Leads d := by
  simp only [lex] at h
  split at h
  · cases h
  · split at h
    · cases h
    · cases h
      exact ⟨rfl, leads_advance _ _⟩

theorem inside_of_lex (hc : (ofText source).Leads c) (h : c.lex = .token t s d) :
    s.Inside source := by
  obtain ⟨rfl, hd⟩ := span_of_lex h
  exact inside_of_leads (hc.trans c.leads_skipSpace) hd

theorem inside_of_next (hc : (ofText source).Leads c) {expected : Expectation} {l : Lexeme}
    (h : c.next expected = .ok l) : l.span.Inside source :=
  inside_of_lex hc (next_eq_ok.1 h)

theorem inside_of_unexpected (h : s.Inside source) (expected : Expectation) (t : Token) :
    (ParseError.unexpectedToken s expected t).Inside source := by
  rintro _ ⟨⟩
  exact h

theorem inside_of_end (expected : Expectation) :
    (ParseError.unexpectedEnd expected).Inside source := by
  rintro _ ⟨⟩

theorem follows_next (hc : (ofText source).Leads c) (expected : Expectation) :
    Follows source word (c.next expected) (next source c.offset expected) := by
  refine ⟨?_, ?_⟩
  · rw [next, seek_of_leads hc]
    rfl
  · intro e h
    rw [Cursor.next] at h
    split at h
    · cases h
    · rename_i hlex
      cases h
      obtain ⟨rfl, hd⟩ := span_of_invalid hlex
      rintro _ ⟨⟩
      exact inside_of_leads (hc.trans c.leads_skipSpace) hd
    · cases h
      exact inside_of_end expected

theorem peek?_of_leads (hc : (ofText source).Leads c) :
    peek? source c.offset = .ok (c.peek?.map word) := by
  rw [peek?, seek_of_leads hc]
  rfl

theorem comesNext_of_leads (hc : (ofText source).Leads c) (t : Token) :
    comesNext source c.offset t = .ok (c.peek?.any (·.token == t)) := by
  rw [comesNext, peek?_of_leads hc]
  cases c.peek? <;> rfl

theorem skip_of_leads (hc : (ofText source).Leads c) (t : Token) :
    skip source c.offset t = .ok (c.skip t).offset := by
  rw [skip, peek?_of_leads hc, Cursor.skip]
  cases c.peek? with
  | none => rfl
  | some l =>
    change Except.ok (if l.token = t then l.next.offset else c.offset)
      = .ok (if l.token = t then l.next else c).offset
    rw [apply_ite Cursor.offset]

theorem follows_expect (hc : (ofText source).Leads c) (t : Token) (expected : Expectation) :
    Follows source (fun l => l.next.offset) (c.expect t expected)
      (expect source c.offset t expected) := by
  refine (follows_next hc expected).bind fun l hl => ?_
  exact .ite (fun _ => .ok l) fun _ => .error (inside_of_unexpected (inside_of_next hc hl) _ _)

theorem follows_ident (hc : (ofText source).Leads c) (expected : Expectation) :
    Follows source (fun p => (p.1, p.2.offset)) (c.ident expected)
      (ident source c.offset expected) := by
  refine (follows_next hc expected).bind fun l hl => ?_
  have hinside := inside_of_next hc hl
  simp only [word]
  cases l.token with
  | ident name => exact .ok (name, l.next)
  | _ => exact .error (inside_of_unexpected hinside _ _)

theorem follows_keyword (hc : (ofText source).Leads c) (name : String) :
    Follows source Cursor.offset (c.keyword name) (keyword source c.offset name) :=
  (follows_expect hc _ _).map

theorem slice_between {a b : Char} {body : List Char} (ha : a.utf8Size = 1) (hb : b.utf8Size = 1)
    (h : Text.slice source s = some (a :: body ++ [b])) :
    Text.slice source ⟨s.start + 1, s.stop - 1⟩ = some body := by
  obtain ⟨front, back, hsource, hstart, hstop⟩ := Text.slice_eq_some.1 h
  simp only [List.cons_append, Text.byteLength, Text.byteLength_append, ha, hb] at hstop
  refine Text.slice_eq_some.2 ⟨front ++ [a], b :: back, ?_, ?_, ?_⟩
  · rw [hsource]
    simp
  · simp [Text.byteLength_append, Text.byteLength, ha, hstart]
  · simp only
    omega

theorem unquoted_of_lex (hc : (ofText source).Leads c) (h : c.lex = .token t s d) :
    unquoted source t s = .ok t := by
  cases t with
  | string quote body =>
    obtain ⟨rfl, hd⟩ := span_of_lex h
    have hrest := skipSpace_of_lex h (by rintro _ ⟨⟩)
    have hslice := slice_of_leads (hc.trans c.leads_skipSpace) hd
    rw [upTo_of_append hrest] at hslice
    have hquote : quote.char.utf8Size = 1 := by cases quote <;> rfl
    rw [unquoted, cut_of_slice (slice_between hquote hquote hslice)]
    simp [bind, Except.bind, pure, Except.pure]
  | _ => rfl

end Tokens

end Checked

end PageEditor
