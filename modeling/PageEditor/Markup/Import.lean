import PageEditor.Markup.Error
import PageEditor.Node.Basic
import PageEditor.Text.Blank

/-!
# Imports

A page begins with import statements, which give names to the exports of packages. Between them,
and between the elements behind them, there may be blanks and comments.
-/
set_option autoImplicit false
set_option linter.unusedVariables false

namespace PageEditor

/-! ## Blanks and comments -/

namespace Text

/-- How many characters there are up to and with the first `*/`, or in all. -/
def commentSize : List Char → Nat
  | [] => 0
  | '*' :: '/' :: _ => 2
  | _ :: r => commentSize r + 1

end Text

namespace Cursor

def skipBlanks (c : Cursor) : Cursor := c.advance (Text.leading c.rest).length

/-- Moves behind the comment that starts here: `//` up to the end of the line, `/*` up to the first
`*/`, which may share the asterisk. -/
def skipComment? (c : Cursor) : Option Cursor :=
  match c.rest with
  | '/' :: '/' :: r => some (c.advance (2 + (r.takeWhile (· != '\n')).length))
  | '/' :: '*' :: r => some (c.advance (1 + Text.commentSize ('*' :: r)))
  | _ => none

theorem skipBlanks_length_le (c : Cursor) : c.skipBlanks.rest.length ≤ c.rest.length := by
  rw [skipBlanks, advance_length]
  omega

theorem skipComment?_length_lt {c d : Cursor} (h : c.skipComment? = some d) :
    d.rest.length < c.rest.length := by
  unfold skipComment? at h
  split at h
  · rename_i r hr
    cases h
    rw [advance_length, hr]
    simp only [List.length_cons]
    omega
  · rename_i r hr
    cases h
    rw [advance_length, hr]
    simp only [List.length_cons]
    omega
  · cases h

/-- Skips blanks and comments. -/
def skipTrivia (c : Cursor) : Cursor :=
  match h : c.skipBlanks.skipComment? with
  | some d => d.skipTrivia
  | none => c.skipBlanks
termination_by c.rest.length
decreasing_by
  exact Nat.lt_of_lt_of_le (skipComment?_length_lt h) c.skipBlanks_length_le

theorem skipTrivia_length_le (c : Cursor) : c.skipTrivia.rest.length ≤ c.rest.length := by
  fun_induction skipTrivia c with
  | case1 c d h ih =>
    exact Nat.le_trans ih
      (Nat.le_of_lt (Nat.lt_of_lt_of_le (skipComment?_length_lt h) c.skipBlanks_length_le))
  | case2 c h => exact c.skipBlanks_length_le

end Cursor

/-! ## Statements -/

/-- A name: what the package calls it, and what the page calls it. -/
structure Binding where
  imported : String
  localName : String
  kind : ImportKind
  deriving DecidableEq, Repr

structure Import where
  package : String
  bindings : List Binding
  span : Span
  deriving DecidableEq, Repr

namespace Import

/-- The first import that gives a name a meaning, and the binding that does so. -/
def resolve? (imports : List Import) (localName : String) : Option (String × Binding) :=
  imports.findSome? fun i =>
    (i.bindings.find? (·.localName == localName)).map (i.package, ·)

end Import

/-! ## Reading -/

namespace Cursor

/-- Reads the names of a list in braces, behind the opening brace. Commas may be missing. -/
def namedBindings (c : Cursor) : Except ParseError (List Binding × Cursor) :=
  match h : c.next .importedName with
  | .error e => .error e
  | .ok l =>
    match l.token with
    | .rightBrace => .ok ([], l.next)
    | .ident imported =>
      let renamed := l.next.peek?.any (·.token == .ident "as")
      match h' : if renamed then (l.next.keyword "as").bind (·.ident .localName)
          else .ok (imported, l.next) with
      | .error e => .error e
      | .ok (localName, d) =>
        match (d.skip .comma).namedBindings with
        | .error e => .error e
        | .ok (more, d) => .ok (⟨imported, localName, .named⟩ :: more, d)
    | t => .error (.unexpectedToken l.span .importedName t)
termination_by c.rest.length
decreasing_by
  have h1 := next_length_lt h
  have h2 := d.skip_length_le .comma
  have h3 : d.rest.length ≤ l.next.rest.length := by
    split at h'
    · simp only [Except.bind] at h'
      split at h'
      · cases h'
      · rename_i k hk
        exact Nat.le_of_lt (Nat.lt_trans (ident_length_lt h') (keyword_length_lt hk))
    · cases h'
      exact Nat.le_refl _
  omega

theorem namedBindings_length_lt {c : Cursor} {p : List Binding × Cursor}
    (h : c.namedBindings = .ok p) : p.2.rest.length < c.rest.length := by
  fun_induction namedBindings c generalizing p with
  | case1 => cases h
  | case2 c l hl ht => cases h; exact next_length_lt hl
  | case3 => cases h
  | case4 => cases h
  | case5 c l hl imported ht renamed localName d hd more d' hm =>
    rename_i ih
    have h4 := ih hm
    cases h
    have h1 := next_length_lt hl
    have h2 := d.skip_length_le .comma
    have h3 : d.rest.length ≤ l.next.rest.length := by
      split at hd
      · simp only [Except.bind] at hd
        split at hd
        · cases hd
        · rename_i k hk
          exact Nat.le_of_lt (Nat.lt_trans (ident_length_lt hd) (keyword_length_lt hk))
      · cases hd
        exact Nat.le_refl _
    simp only at h4 ⊢
    omega
  | case6 => cases h

/-- Reads what stands between `import` and `from`. -/
def importClause (c : Cursor) : Except ParseError (List Binding × Cursor) :=
  match c.next .importClause with
  | .error e => .error e
  | .ok l =>
    match l.token with
    | .star => do
      let d ← l.next.keyword "as"
      let (localName, d) ← d.ident .namespaceName
      return ([⟨"*", localName, .whole⟩], d)
    | .leftBrace => l.next.namedBindings
    | .ident localName =>
      let first : Binding := ⟨"default", localName, .default⟩
      if l.next.peek?.any (·.token == .comma) then do
        let b ← (l.next.skip .comma).expect .leftBrace .leftBrace
        let (more, d) ← b.next.namedBindings
        return (first :: more, d)
      else .ok ([first], l.next)
    | t => .error (.unexpectedToken l.span .importClause t)

/-- Reads an import statement; a semicolon may end it. -/
def importStatement (c : Cursor) : Except ParseError (Import × Cursor) := do
  let d ← c.keyword "import"
  let (bindings, d) ← d.importClause
  let d ← d.keyword "from"
  let l ← d.next .packageName
  match l.token with
  | .string _ package =>
    let d := l.next.skip .semicolon
    return (⟨package, bindings, c.span d⟩, d)
  | t => throw (.unexpectedToken l.span .packageName t)

theorem importClause_length_lt {c : Cursor} {p : List Binding × Cursor}
    (h : c.importClause = .ok p) : p.2.rest.length < c.rest.length := by
  simp only [importClause] at h
  split at h
  · cases h
  · rename_i l hl
    have h1 := next_length_lt hl
    split at h
    · simp only [bind, Except.bind] at h
      split at h
      · cases h
      · rename_i d hd
        split at h
        · cases h
        · rename_i q hq
          cases h
          have h2 := keyword_length_lt hd
          have h3 := ident_length_lt hq
          simp only
          omega
    · exact Nat.lt_trans (namedBindings_length_lt h) h1
    · split at h
      · simp only [bind, Except.bind] at h
        split at h
        · cases h
        · rename_i b hb
          split at h
          · cases h
          · rename_i q hq
            cases h
            have h2 := l.next.skip_length_le .comma
            have h3 := expect_length_lt hb
            have h4 := namedBindings_length_lt hq
            simp only
            omega
      · cases h
        exact h1
    · cases h

theorem importStatement_length_lt {c : Cursor} {p : Import × Cursor}
    (h : c.importStatement = .ok p) : p.2.rest.length < c.rest.length := by
  simp only [importStatement, bind, Except.bind] at h
  split at h
  · cases h
  · rename_i d hd
    have h1 := keyword_length_lt hd
    split at h
    · cases h
    · rename_i q hq
      have h2 := importClause_length_lt hq
      split at h
      · cases h
      · rename_i d' hd'
        have h3 := keyword_length_lt hd'
        split at h
        · cases h
        · rename_i l hl
          have h4 := next_length_lt hl
          split at h
          · cases h
            have h5 := l.next.skip_length_le .semicolon
            simp only
            omega
          · cases h

/-- Reads the import statements in front; stops behind the blanks and comments that follow. -/
def prelude (c : Cursor) : Except ParseError (List Import × Cursor) :=
  let c' := c.skipTrivia
  if c'.peek?.any (·.token == .ident "import") then
    match h : c'.importStatement with
    | .error e => .error e
    | .ok (i, d) =>
      match d.prelude with
      | .error e => .error e
      | .ok (more, d) => .ok (i :: more, d)
  else .ok ([], c')
termination_by c.rest.length
decreasing_by
  exact Nat.lt_of_lt_of_le (importStatement_length_lt h) c.skipTrivia_length_le

end Cursor

namespace Import

/-- The import statements at the beginning of a text. -/
def readAll (source : String) : Except ParseError (List Import) :=
  (Cursor.ofText source.toList).prelude.map (·.1)

/-- The offset behind the last import; zero when there is none. -/
def endOffset (imports : List Import) : Nat :=
  match imports.getLast? with
  | some i => i.span.stop
  | none => 0

end Import

end PageEditor
