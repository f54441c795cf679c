import PageEditor.Proofs.Markup.Bounds.Tokens
import PageEditor.Proofs.Markup.Styles

/-!
# Reading tags by offsets

The tags with their attributes, and the style objects among them. A style object is read from the
inside of its expression, where the first brace is read too: all offsets are larger by one than those
of the reader that begins behind this brace.
-/
set_option autoImplicit false

namespace PageEditor

open Cursor

/-! ## Moved places -/

/-- The same text at a later offset. -/
def Cursor.moved (k : Nat) (c : Cursor) : Cursor := ⟨c.offset + k, c.rest⟩

def Lexeme.moved (k : Nat) (l : Lexeme) : Lexeme :=
  ⟨l.token, ⟨l.span.start + k, l.span.stop + k⟩, l.next.moved k⟩

theorem Cursor.Leads.moved {c d : Cursor} (h : c.Leads d) (k : Nat) :
    (c.moved k).Leads (d.moved k) := by
  refine .of_append (m := c.upTo d) h.rest.symm ?_
  simp only [Cursor.moved]
  rw [← h.offset, Nat.add_right_comm]

theorem Cursor.advance_moved (c : Cursor) (k n : Nat) :
    (c.moved k).advance n = (c.advance n).moved k := by
  simp only [moved, advance, Nat.add_right_comm]

/-- What is read does not depend on the offset that the reading starts at. -/
theorem Cursor.peek?_moved (c : Cursor) (k : Nat) :
    (c.moved k).peek? = c.peek?.map (Lexeme.moved k) := by
  have hskip : (c.moved k).skipSpace = c.skipSpace.moved k := advance_moved c k _
  have hrest : (c.skipSpace.moved k).rest = c.skipSpace.rest := rfl
  simp only [peek?, lex, hskip, advance_moved, hrest]
  cases c.skipSpace.rest.isEmpty with
  | true => rfl
  | false => cases (Token.scan c.skipSpace.rest).1 <;> rfl

namespace Checked

/-! ## Style objects -/

/-- Reads the entries of a style object behind its opening brace. -/
def styleEntries (source : List Char) :
    Nat → Nat → Except Stop (Option (List (String × String) × Nat))
  | 0, _ => throw .exhausted
  | n + 1, pos => do
    let some (t, s, behind) ← peek? source pos | return none
    let t ← unquoted source t s
    if t = .rightBrace then return some ([], behind)
    let some key := t.styleKey? | return none
    let some (mark, _, behind) ← peek? source behind | return none
    let some (v, s, behind) ← peek? source behind | return none
    let v ← unquoted source v s
    let some (last, _, behind) ← peek? source behind | return none
    let some value := v.styleValue? | return none
    if mark ≠ .colon then return none
    else if last = .rightBrace then return some ([(key, value)], behind)
    else if last = .comma then
      let more ← styleEntries source n behind
      return more.map fun (more, pos) => ((key, value) :: more, pos)
    else return none

/-- Reads an expression that is a style object. What is cut here are parts of the expression. -/
def styleObject? (raw : List Char) : Except Stop (Option (OrderedMap String)) := do
  if raw.take 2 = ['\x7b', '\x7b'] ∧ raw.reverse.take 2 = ['\x7d', '\x7d'] then
    let inner ← cut raw ⟨1, Text.byteLength raw - 1⟩
    match ← peek? inner 0 with
    | some (.leftBrace, _, behind) =>
      match ← styleEntries inner (rounds inner) behind with
      | some (entries, pos) =>
        let c ← seek inner pos
        return if (Text.trim c.rest).isEmpty then some (.ofList entries) else none
      | none => return none
    | _ => return none
  else return none

section Moved

variable {source : List Char} {c : Cursor} {l : Lexeme} {k : Nat}

theorem peek?_of_moved (hc : (ofText source).Leads (c.moved k)) :
    peek? source (c.offset + k) = .ok (c.peek?.map fun l => word (l.moved k)) := by
  have hpeek := peek?_of_leads hc
  rwa [peek?_moved, Option.map_map] at hpeek

theorem peek?_moved_of_some (hl : c.peek? = some l) : (c.moved k).peek? = some (l.moved k) := by
  rw [peek?_moved, hl]
  rfl

theorem leads_of_moved (hc : (ofText source).Leads (c.moved k)) (hl : c.peek? = some l) :
    (ofText source).Leads (l.next.moved k) :=
  hc.trans (leads_of_peek? (peek?_moved_of_some hl))

theorem unquoted_of_moved (hc : (ofText source).Leads (c.moved k)) (hl : c.peek? = some l) :
    unquoted source l.token ⟨l.span.start + k, l.span.stop + k⟩ = .ok l.token :=
  unquoted_of_lex hc (peek?_eq_some.1 (peek?_moved_of_some hl))

end Moved

/-- One step that may find nothing, and then the others. -/
theorem bind_of_option {α β γ δ : Type} {f : α → β} {g : γ → δ} {x : Option α} {k : α → Option γ}
    {y : Except Stop (Option β)} {k' : Option β → Except Stop (Option δ)} (h : y = .ok (x.map f))
    (hnone : k' none = .ok none)
    (hsome : ∀ a, x = some a → k' (some (f a)) = .ok ((k a).map g)) :
    (y >>= k') = .ok ((x.bind k).map g) := by
  subst h
  cases x with
  | none => exact hnone
  | some a => exact hsome a rfl

/-- The entries are those that are read from the same text at an offset smaller by `k`. -/
theorem styleEntries_of_moved {source : List Char} {k : Nat} (n : Nat) : ∀ {c : Cursor},
    (ofText source).Leads (c.moved k) → c.rest.length < n →
    styleEntries source n (c.offset + k) =
      .ok ((Value.styleEntries c).map fun p => (p.1, p.2.offset + k)) := by
  induction n with
  | zero =>
    intro c _ hn
    cases hn
  | succ n ih =>
    intro c hc hn
    rw [styleEntries, Value.styleEntries_eq]
    refine bind_of_option (peek?_of_moved hc) rfl fun l hl => ?_
    have hl' := leads_of_moved hc hl
    have hlt := peek?_length_lt hl
    simp only [word, Lexeme.moved, Cursor.moved, unquoted_of_moved hc hl, ok_bind]
    by_cases hend : l.token = .rightBrace
    · rw [if_pos hend, if_pos hend]
      rfl
    rw [if_neg hend, if_neg hend]
    cases l.token.styleKey? with
    | none => rfl
    | some key =>
    rw [Option.bind_some]
    refine bind_of_option (peek?_of_moved hl') rfl fun m hm => ?_
    have hm' := leads_of_moved hl' hm
    have hmt := peek?_length_lt hm
    refine bind_of_option (peek?_of_moved hm') rfl fun v hv => ?_
    have hv' := leads_of_moved hm' hv
    have hvt := peek?_length_lt hv
    simp only [word, Lexeme.moved, Cursor.moved, unquoted_of_moved hm' hv, ok_bind]
    refine bind_of_option (peek?_of_moved hv') rfl fun last hlast => ?_
    have hlast' := leads_of_moved hv' hlast
    have hlastt := peek?_length_lt hlast
    cases v.token.styleValue? with
    | none => rfl
    | some value =>
    simp only [word, Lexeme.moved, Cursor.moved, Option.bind_some, ih hlast' (by omega), ok_bind]
    split
    · rfl
    · split
      · rfl
      · split
        · cases Value.styleEntries last.next <;> rfl
        · rfl

theorem cut_inside {raw body : List Char} (h : raw = '\x7b' :: body ++ ['\x7d']) :
    cut raw ⟨1, Text.byteLength raw - 1⟩ = .ok body := by
  have hall : Text.slice raw ⟨0, Text.byteLength raw⟩ = some raw := slice_rest (Leads.refl _)
  rw [h] at hall ⊢
  exact cut_of_slice (slice_between (s := ⟨0, _⟩) rfl rfl hall)

theorem leads_of_styleEntries (n : Nat) : ∀ {c : Cursor} {p : List (String × String) × Cursor},
    c.rest.length < n → Value.styleEntries c = some p → c.Leads p.2 := by
  induction n with
  | zero =>
    intro c _ hn
    cases hn
  | succ n ih =>
    intro c p hn h
    rw [Value.styleEntries_eq] at h
    obtain ⟨l, hl, h⟩ := Option.bind_eq_some_iff.1 h
    have hlt := peek?_length_lt hl
    refine (leads_of_peek? hl).trans ?_
    split at h
    · cases h
      exact .refl _
    obtain ⟨key, -, h⟩ := Option.bind_eq_some_iff.1 h
    obtain ⟨m, hm, h⟩ := Option.bind_eq_some_iff.1 h
    obtain ⟨v, hv, h⟩ := Option.bind_eq_some_iff.1 h
    obtain ⟨last, hlast, h⟩ := Option.bind_eq_some_iff.1 h
    obtain ⟨value, -, h⟩ := Option.bind_eq_some_iff.1 h
    have hlead := (leads_of_peek? hm).trans ((leads_of_peek? hv).trans (leads_of_peek? hlast))
    have hless := hlead.length_le
    refine hlead.trans ?_
    split at h
    · cases h
    split at h
    · cases h
      exact .refl _
    split at h
    · obtain ⟨q, hmore, rfl⟩ := Option.map_eq_some_iff.1 h
      exact ih (p := q) (by omega) hmore
    · cases h

theorem exists_inside {raw : List Char} (hopen : raw.take 2 = ['\x7b', '\x7b'])
    (hclose : raw.reverse.take 2 = ['\x7d', '\x7d']) :
    ∃ body, raw = '\x7b' :: ('\x7b' :: body) ++ ['\x7d'] := by
  match raw with
  | [] | [_] => cases hopen
  | a :: b :: r =>
    cases hopen
    rcases List.eq_nil_or_concat r with rfl | ⟨body, x, rfl⟩
    · cases hclose
    · simp only [List.concat_eq_append, List.reverse_cons, List.reverse_append, List.reverse_nil,
        List.nil_append, List.cons_append, List.take_succ_cons, List.cons.injEq] at hclose
      refine ⟨body, ?_⟩
      rw [hclose.1, List.concat_eq_append]
      rfl

theorem styleObject?_eq (raw : String) :
    styleObject? raw.toList = .ok (Value.styleObject? raw) := by
  rw [styleObject?]
  split
  · rename_i h
    obtain ⟨body, hbody⟩ := exists_inside h.1 h.2
    have hpeek : (ofText ('\x7b' :: body)).peek? = some ⟨.leftBrace, ⟨0, 1⟩, ⟨1, body⟩⟩ := rfl
    have hlead : (ofText ('\x7b' :: body)).Leads ((ofText body).moved 1) := leads_of_peek? hpeek
    have hfirst : peek? ('\x7b' :: body) 0 = .ok (some (.leftBrace, ⟨0, 1⟩, 1)) := by
      have hhere := peek?_of_leads (Leads.refl (ofText ('\x7b' :: body)))
      rwa [hpeek] at hhere
    have hlength : (ofText body).rest.length < rounds ('\x7b' :: body) :=
      lt_rounds (c := (ofText body).moved 1) hlead
    have hentries : styleEntries ('\x7b' :: body) (rounds ('\x7b' :: body)) 1 = _ :=
      styleEntries_of_moved _ hlead hlength
    rw [Value.styleObject?_of_inside hbody h.2, cut_inside hbody]
    simp only [ok_bind, hfirst, hentries]
    cases hread : Value.styleEntries (ofText body) with
    | none => rfl
    | some p =>
      have hstop := (leads_of_styleEntries _ (Nat.lt_succ_self _) hread).moved 1
      have hrest : seek ('\x7b' :: body) (p.2.offset + 1) = .ok (p.2.moved 1) :=
        seek_of_leads (hlead.trans hstop)
      simp only [Option.map_some, Option.bind_some, hrest, ok_bind]
      rfl
  · rename_i h
    rw [Value.styleObject?]
    split
    · rename_i r hr
      rw [hr] at h
      rw [if_neg]
      · rfl
      · intro hclose
        exact h ⟨rfl, hr ▸ hclose⟩
    · rfl

/-! ## Tags -/

section Tags

variable (source : List Char)

/-- The offset behind the expression in braces that starts here. -/
def braced (pos : Nat) : Except Stop Nat := do
  let c ← seek source pos
  (c.braced.map (·.offset)).mapError .refused

def attributeValue (pos : Nat) : Except Stop (AttributeValue × Nat) := do
  let some (t, s, behind) ← peek? source pos | throw (.refused (.unexpectedEnd .attributeValue))
  match ← unquoted source t s with
  | .string _ body => return (.literal body, behind)
  | .leftBrace =>
    let stop ← braced source s.start
    let raw ← cut source ⟨s.start, stop⟩
    return (.expression (String.ofList raw), stop)
  | t => throw (.refused (.unexpectedToken s .attributeValue t))

def valueAfterName (pos : Nat) : Except Stop (AttributeValue × Nat) := do
  let some (t, _, behind) ← peek? source pos | return (.flag, pos)
  if t = .equals then attributeValue source behind else return (.flag, pos)

/-- The style that an attribute is read as. -/
def style? (a : Attribute) : Except Stop (Option (OrderedMap String)) :=
  match a.value with
  | .expression raw => if a.name = "style" then styleObject? raw.toList else return none
  | _ => return none

def attributes : Nat → Nat → Except Stop (List Attribute × Bool × Nat)
  | 0, _ => throw .exhausted
  | n + 1, pos => do
    let (t, s, behind) ← next source pos .attributeOrEnd
    match t with
    | .greater => return ([], false, behind)
    | .selfClose => return ([], true, behind)
    | .ident name =>
      let (value, pos) ← valueAfterName source behind
      let _ ← style? ⟨name, value⟩
      let (more, closed, pos) ← attributes n pos
      return (⟨name, value⟩ :: more, closed, pos)
    | .leftBrace => throw (.refused (.spreadAttribute s))
    | t => throw (.refused (.unexpectedToken s .attributeOrEnd t))

def openTag (pos : Nat) : Except Stop (OpenTag × Nat) := do
  let pos ← expect source pos .less .less
  let (name, pos) ← ident source pos .tagName
  let (attributes, closed, pos) ← attributes source (rounds source) pos
  return (⟨name, attributes, closed⟩, pos)

def closeTag (pos : Nat) (tag : String) : Except Stop Nat := do
  let pos ← expect source pos .closeTagOpen .less
  let (t, s, pos) ← next source pos .closingTagName
  match t with
  | .ident found =>
    if found = tag then expect source pos .greater .greater
    else throw (.refused (.mismatchedTag s tag found))
  | t => throw (.refused (.unexpectedToken s .closingTagName t))

end Tags

section Tags

variable {source : List Char} {c : Cursor}

theorem follows_braced (hc : (ofText source).Leads c) :
    Follows source Cursor.offset c.braced (braced source c.offset) := by
  refine ⟨?_, ?_⟩
  · rw [braced, seek_of_leads hc]
    rfl
  · intro e h
    rw [Cursor.braced] at h
    split at h
    · cases h
    · cases h
      exact inside_of_end _

theorem follows_attributeValue (hc : (ofText source).Leads c) :
    Follows source (fun p => (p.1, p.2.offset)) c.attributeValue
      (attributeValue source c.offset) := by
  rw [attributeValue, Cursor.attributeValue, peek?_of_leads hc]
  cases hl : c.peek? with
  | none => exact .error (inside_of_end _)
  | some l =>
  have hlex := peek?_eq_some.1 hl
  have hinside := inside_of_lex hc hlex
  have hstart : l.span.start = c.skipSpace.offset := by rw [(span_of_lex hlex).1]; rfl
  have hspace := hc.trans c.leads_skipSpace
  simp only [Option.map_some, ok_bind, word, unquoted_of_lex hc hlex, hstart]
  cases l.token with
  | string quote body => exact .ok (AttributeValue.literal body, l.next)
  | leftBrace =>
    refine (follows_braced hspace).bind fun d hd => ?_
    rw [cut_of_leads hspace (leads_of_braced hd)]
    exact .ok (AttributeValue.expression (String.ofList (c.skipSpace.upTo d)), d)
  | _ => exact .error (inside_of_unexpected hinside _ _)

theorem follows_valueAfterName (hc : (ofText source).Leads c) :
    Follows source (fun p => (p.1, p.2.offset)) c.valueAfterName
      (valueAfterName source c.offset) := by
  rw [valueAfterName, Cursor.valueAfterName, peek?_of_leads hc]
  cases hl : c.peek? with
  | none => exact .ok (AttributeValue.flag, c)
  | some l =>
    exact .ite (fun _ => follows_attributeValue (hc.trans (leads_of_peek? hl)))
      fun _ => .ok (AttributeValue.flag, c)

theorem exists_style? (a : Attribute) : ∃ style, style? a = .ok style := by
  rw [style?]
  split
  · split
    · exact ⟨_, styleObject?_eq _⟩
    · exact ⟨_, rfl⟩
  · exact ⟨_, rfl⟩

theorem follows_attributes (n : Nat) : ∀ {c : Cursor}, (ofText source).Leads c →
    c.rest.length < n →
    Follows source (fun p => (p.1, p.2.1, p.2.2.offset)) c.attributes
      (attributes source n c.offset) := by
  induction n with
  | zero =>
    intro c _ hn
    cases hn
  | succ n ih =>
    intro c hc hn
    rw [attributes, Cursor.attributes_eq]
    refine (follows_next hc _).bind fun l hl => ?_
    have hl' := hc.trans (leads_of_next hl)
    have hinside := inside_of_next hc hl
    have hlt := next_length_lt hl
    simp only [word]
    cases l.token with
    | greater => exact .ok ([], false, l.next)
    | selfClose => exact .ok ([], true, l.next)
    | ident name =>
      refine (follows_valueAfterName hl').bind fun p hp => ?_
      obtain ⟨value, d⟩ := p
      have hle : d.rest.length ≤ l.next.rest.length := valueAfterName_length_le hp
      obtain ⟨style, hstyle⟩ := exists_style? ⟨name, value⟩
      rw [hstyle, ok_bind]
      exact (ih (hl'.trans (leads_of_valueAfterName hp)) (by omega)).bind fun q _ =>
        .ok (⟨name, value⟩ :: q.1, q.2.1, q.2.2)
    | leftBrace => exact .error (by rintro _ ⟨⟩; exact hinside)
    | _ => exact .error (inside_of_unexpected hinside _ _)

theorem follows_openTag (hc : (ofText source).Leads c) :
    Follows source (fun p => (p.1, p.2.offset)) c.openTag (openTag source c.offset) := by
  rw [openTag, Cursor.openTag_eq]
  refine (follows_expect hc _ _).bind fun l hl => ?_
  have hl' := hc.trans (leads_of_expect hl)
  refine (follows_ident hl' _).bind fun p hp => ?_
  have hp' := hl'.trans (leads_of_ident hp)
  exact (follows_attributes _ hp' (lt_rounds hp')).bind fun q _ =>
    .ok ((⟨p.1, q.1, q.2.1⟩ : OpenTag), q.2.2)

theorem follows_closeTag (hc : (ofText source).Leads c) (tag : String) :
    Follows source Cursor.offset (c.closeTag tag) (closeTag source c.offset tag) := by
  rw [closeTag, Cursor.closeTag]
  refine (follows_expect hc _ _).bind fun l hl => ?_
  have hl' := hc.trans (leads_of_expect hl)
  refine (follows_next hl' _).bind fun name hname => ?_
  have hname' := hl'.trans (leads_of_next hname)
  have hinside := inside_of_next hl' hname
  simp only [word]
  cases name.token with
  | ident found =>
    exact .ite (fun _ => (follows_expect hname' _ _).map)
      fun _ => .error (by rintro _ ⟨⟩; exact hinside)
  | _ => exact .error (inside_of_unexpected hinside _ _)

end Tags

end Checked

end PageEditor
