import PageEditor.Proofs.Markup.Bounds.Tokens
import PageEditor.Proofs.Markup.Imports

/-!
# Reading imports by offsets

Blanks and comments, and the import statements in front of a page.
-/
set_option autoImplicit false

namespace PageEditor

open Cursor

namespace Checked

section Imports

variable (source : List Char)

/-- The offset behind blanks and comments. -/
def skipTrivia : Nat → Nat → Except Stop Nat
  | 0, _ => throw .exhausted
  | n + 1, pos => do
    let c ← seek source pos
    match c.skipBlanks.skipComment? with
    | some d => skipTrivia n d.offset
    | none => return c.skipBlanks.offset

def localName (pos : Nat) (imported : String) : Except Stop (String × Nat) := do
  if ← comesNext source pos (.ident "as") then
    let pos ← keyword source pos "as"
    ident source pos .localName
  else return (imported, pos)

def namedBindings : Nat → Nat → Except Stop (List Binding × Nat)
  | 0, _ => throw .exhausted
  | n + 1, pos => do
    let (t, s, behind) ← next source pos .importedName
    match t with
    | .rightBrace => return ([], behind)
    | .ident imported =>
      let (name, pos) ← localName source behind imported
      let pos ← skip source pos .comma
      let (more, pos) ← namedBindings n pos
      return (⟨imported, name, .named⟩ :: more, pos)
    | t => throw (.refused (.unexpectedToken s .importedName t))

def importClause (pos : Nat) : Except Stop (List Binding × Nat) := do
  let (t, s, behind) ← next source pos .importClause
  match t with
  | .star =>
    let pos ← keyword source behind "as"
    let (name, pos) ← ident source pos .namespaceName
    return ([⟨"*", name, .whole⟩], pos)
  | .leftBrace => namedBindings source (rounds source) behind
  | .ident name =>
    let first : Binding := ⟨"default", name, .default⟩
    if ← comesNext source behind .comma then
      let pos ← skip source behind .comma
      let pos ← expect source pos .leftBrace .leftBrace
      let (more, pos) ← namedBindings source (rounds source) pos
      return (first :: more, pos)
    else return ([first], behind)
  | t => throw (.refused (.unexpectedToken s .importClause t))

def importStatement (start : Nat) : Except Stop (Import × Nat) := do
  let pos ← keyword source start "import"
  let (bindings, pos) ← importClause source pos
  let pos ← keyword source pos "from"
  let (t, s, behind) ← next source pos .packageName
  match ← unquoted source t s with
  | .string _ package =>
    let stop ← skip source behind .semicolon
    return (⟨package, bindings, ⟨start, stop⟩⟩, stop)
  | t => throw (.refused (.unexpectedToken s .packageName t))

def prelude : Nat → Nat → Except Stop (List Import × Nat)
  | 0, _ => throw .exhausted
  | n + 1, pos => do
    let pos ← skipTrivia source (rounds source) pos
    if ← comesNext source pos (.ident "import") then
      let (i, pos) ← importStatement source pos
      let (more, pos) ← prelude n pos
      return (i :: more, pos)
    else return ([], pos)

end Imports

section Imports

variable {source : List Char} {c : Cursor}

theorem skipTrivia_of_leads (n : Nat) : ∀ {c : Cursor}, (ofText source).Leads c →
    c.rest.length < n → skipTrivia source n c.offset = .ok c.skipTrivia.offset := by
  induction n with
  | zero =>
    intro c _ hn
    cases hn
  | succ n ih =>
    intro c hc hn
    rw [skipTrivia, Cursor.skipTrivia, seek_of_leads hc, ok_bind]
    split
    · rename_i d h
      have hblanks := c.skipBlanks_length_le
      have hlt := skipComment?_length_lt h
      have hd := c.leads_skipBlanks.trans (leads_of_skipComment? h)
      rw [h]
      exact ih (hc.trans hd) (by omega)
    · rename_i h
      rw [h]
      rfl

theorem follows_localName (hc : (ofText source).Leads c) (imported : String) :
    Follows source (fun p => (p.1, p.2.offset)) (c.localName imported)
      (localName source c.offset imported) := by
  rw [localName, Cursor.localName, comesNext_of_leads hc, ok_bind]
  exact .ite
    (fun _ => (follows_keyword hc _).bind fun d hd => follows_ident (hc.trans (leads_of_keyword hd)) _)
    fun _ => .ok (imported, c)

theorem follows_namedBindings (n : Nat) : ∀ {c : Cursor}, (ofText source).Leads c →
    c.rest.length < n →
    Follows source (fun p => (p.1, p.2.offset)) c.namedBindings (namedBindings source n c.offset) := by
  induction n with
  | zero =>
    intro c _ hn
    cases hn
  | succ n ih =>
    intro c hc hn
    rw [namedBindings, namedBindings_eq]
    refine (follows_next hc _).bind fun l hl => ?_
    have hl' := hc.trans (leads_of_next hl)
    have hinside := inside_of_next hc hl
    have hlt := next_length_lt hl
    simp only [word]
    cases l.token with
    | rightBrace => exact .ok ([], l.next)
    | ident imported =>
      refine (follows_localName hl' imported).bind fun p hp => ?_
      obtain ⟨name, d⟩ := p
      obtain ⟨hle, hlead⟩ := localName_length_le hp
      have hd := hl'.trans hlead
      have hskip := d.skip_length_le .comma
      simp only [skip_of_leads hd, ok_bind]
      exact (ih (hd.trans (leads_skip _ _)) (by omega)).bind fun q _ =>
        .ok ((⟨imported, name, .named⟩ : Binding) :: q.1, q.2)
    | _ => exact .error (inside_of_unexpected hinside _ _)

theorem follows_importClause (hc : (ofText source).Leads c) :
    Follows source (fun p => (p.1, p.2.offset)) c.importClause (importClause source c.offset) := by
  rw [importClause, importClause_eq]
  refine (follows_next hc _).bind fun l hl => ?_
  have hl' := hc.trans (leads_of_next hl)
  have hinside := inside_of_next hc hl
  simp only [word]
  cases l.token with
  | star =>
    refine (follows_keyword hl' _).bind fun d hd => ?_
    exact (follows_ident (hl'.trans (leads_of_keyword hd)) _).bind fun p _ =>
      .ok ([(⟨"*", p.1, .whole⟩ : Binding)], p.2)
  | leftBrace => exact follows_namedBindings _ hl' (lt_rounds hl')
  | ident name =>
    have hskip := hl'.trans (leads_skip l.next .comma)
    simp only [comesNext_of_leads hl', skip_of_leads hl', ok_bind]
    refine .ite (fun _ => ?_) fun _ => .ok ([(⟨"default", name, .default⟩ : Binding)], l.next)
    refine (follows_expect hskip _ _).bind fun b hb => ?_
    have hb' := hskip.trans (leads_of_expect hb)
    exact (follows_namedBindings _ hb' (lt_rounds hb')).bind fun p _ =>
      .ok ((⟨"default", name, .default⟩ : Binding) :: p.1, p.2)
  | _ => exact .error (inside_of_unexpected hinside _ _)

theorem follows_importStatement (hc : (ofText source).Leads c) :
    Follows source (fun p => (p.1, p.2.offset)) c.importStatement
      (importStatement source c.offset) := by
  rw [importStatement, Cursor.importStatement]
  refine (follows_keyword hc _).bind fun d hd => ?_
  have hd' := hc.trans (leads_of_keyword hd)
  refine (follows_importClause hd').bind fun p hp => ?_
  have hp' := hd'.trans (leads_of_importClause hp)
  refine (follows_keyword hp' _).bind fun e he => ?_
  have he' := hp'.trans (leads_of_keyword he)
  refine (follows_next he' _).bind fun l hl => ?_
  have hl' := he'.trans (leads_of_next hl)
  have hinside := inside_of_next he' hl
  simp only [word, unquoted_of_lex he' (next_eq_ok.1 hl), skip_of_leads hl', ok_bind]
  cases l.token with
  | string quote package =>
    exact .ok ((⟨package, p.1, c.span (l.next.skip .semicolon)⟩ : Import), l.next.skip .semicolon)
  | _ => exact .error (inside_of_unexpected hinside _ _)

theorem follows_prelude (n : Nat) : ∀ {c : Cursor}, (ofText source).Leads c →
    c.rest.length < n →
    Follows source (fun p => (p.1, p.2.offset)) c.prelude (prelude source n c.offset) := by
  induction n with
  | zero =>
    intro c _ hn
    cases hn
  | succ n ih =>
    intro c hc hn
    have hc' := hc.trans c.leads_skipTrivia
    have hle := c.skipTrivia_length_le
    rw [prelude, prelude_eq, skipTrivia_of_leads _ hc (lt_rounds hc), ok_bind,
      comesNext_of_leads hc', ok_bind]
    refine .ite (fun _ => ?_) fun _ => .ok ([], c.skipTrivia)
    refine (follows_importStatement hc').bind fun p hp => ?_
    obtain ⟨i, d⟩ := p
    have hlt : d.rest.length < c.skipTrivia.rest.length := importStatement_length_lt hp
    exact (ih (hc'.trans (leads_of_importStatement hp).1) (by omega)).bind fun q _ =>
      .ok (i :: q.1, q.2)

end Imports

end Checked

end PageEditor
