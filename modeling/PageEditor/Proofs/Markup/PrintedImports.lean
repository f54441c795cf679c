import PageEditor.Proofs.Markup.AddedImports
import PageEditor.Proofs.Markup.Printed
import PageEditor.Proofs.Markup.Reopening

/-!
# Printed imports

The statement that is printed for a need is read as an import of just that need when its names are names
and its package can stand between quotes. What is read in braces is always a name.
-/
set_option autoImplicit false

namespace PageEditor

open Cursor

/-! ## Names that are read -/

theorem Token.isName_takeWhile {cs : List Char} (h : IsName cs) :
    IsName (cs.takeWhile (· != '.')) := by
  obtain ⟨c, r, rfl, hc, hr⟩ := h
  have hpoint : (c != '.') = true := by
    rw [bne_iff_ne]
    exact isIdentStart_ne hc (by decide)
  rw [List.takeWhile_cons_of_pos (p := (· != '.')) hpoint]
  refine ⟨c, _, rfl, hc, List.all_eq_true.2 fun x hx => ?_⟩
  exact List.all_eq_true.1 hr x ((List.takeWhile_sublist _).subset hx)

theorem isName_baseName {name : String} (h : Token.IsName name.toList) :
    Token.IsName (baseName name).toList := by
  rw [baseName, String.toList_ofList]
  exact Token.isName_takeWhile h

/-- A named export has a name. -/
def Binding.IsProper (b : Binding) : Prop := b.kind = .named → Token.IsName b.imported.toList

namespace Cursor

variable {c d e : Cursor} {bs : List Binding} {i : Import} {is : List Import}

theorem isProper_of_namedBindings (h : c.namedBindings = .ok (bs, e)) : ∀ b ∈ bs, b.IsProper := by
  fun_induction namedBindings c generalizing bs e with
  | case1 => cases h
  | case2 => cases h; rintro _ ⟨⟩
  | case3 => cases h
  | case4 => cases h
  | case5 c l hl imported ht renamed name f hname more g hmore =>
    rename_i ih
    cases h
    refine List.forall_mem_cons.2 ⟨fun _ => ?_, ih hmore⟩
    exact isName_of_ident (ident_eq_ok.2 ⟨l, hl, ht, rfl⟩)
  | case6 => cases h

theorem isProper_of_importClause (h : c.importClause = .ok (bs, e)) : ∀ b ∈ bs, b.IsProper := by
  have hother : ∀ {imported name : String} {kind : ImportKind}, kind ≠ .named →
      (⟨imported, name, kind⟩ : Binding).IsProper := fun hne hkind => absurd hkind hne
  rw [importClause_eq] at h
  obtain ⟨l, -, h⟩ := bind_eq_ok.1 h
  split at h
  · obtain ⟨d, _, h⟩ := bind_eq_ok.1 h
    obtain ⟨⟨name, d⟩, _, h⟩ := bind_eq_ok.1 h
    cases h
    exact List.forall_mem_singleton.2 (hother (by decide))
  · exact isProper_of_namedBindings h
  · split at h
    · obtain ⟨b, _, h⟩ := bind_eq_ok.1 h
      obtain ⟨⟨more, d⟩, hmore, h⟩ := bind_eq_ok.1 h
      cases h
      exact List.forall_mem_cons.2 ⟨hother (by decide), isProper_of_namedBindings hmore⟩
    · cases h
      exact List.forall_mem_singleton.2 (hother (by decide))
  · cases h

theorem isProper_of_importStatement (h : c.importStatement = .ok (i, e)) :
    ∀ b ∈ i.bindings, b.IsProper := by
  obtain ⟨_, _, h⟩ := bind_eq_ok.1 h
  obtain ⟨⟨bs, _⟩, hbs, h⟩ := bind_eq_ok.1 h
  obtain ⟨_, _, h⟩ := bind_eq_ok.1 h
  obtain ⟨l, _, h⟩ := bind_eq_ok.1 h
  split at h
  · cases h
    exact isProper_of_importClause hbs
  · cases h

theorem ReadsImports.isProper (h : ReadsImports c is e) :
    ∀ i ∈ is, ∀ b ∈ i.bindings, b.IsProper := by
  induction h with
  | nil => rintro _ ⟨⟩
  | cons hi _ ih => exact List.forall_mem_cons.2 ⟨isProper_of_importStatement hi, ih⟩

end Cursor

theorem Import.mem_of_resolve? {is : List Import} {localName package : String} {b : Binding}
    (h : resolve? is localName = some (package, b)) :
    ∃ i ∈ is, i.package = package ∧ b ∈ i.bindings ∧ b.localName = localName := by
  obtain ⟨i, hi, hfound⟩ := List.exists_of_findSome?_eq_some h
  obtain ⟨b', hb, hpair⟩ := Option.map_eq_some_iff.1 hfound
  cases hpair
  have hname := List.find?_some hb
  exact ⟨i, hi, rfl, List.mem_of_find?_eq_some hb, beq_iff_eq.1 hname⟩

theorem Import.resolve?_isSome {is : List Import} {i : Import} {b : Binding} (hi : i ∈ is)
    (hb : b ∈ i.bindings) : (resolve? is b.localName).isSome := by
  rw [resolve?, List.findSome?_isSome_iff]
  refine ⟨i, hi, ?_⟩
  rw [Option.isSome_map, List.find?_isSome]
  exact ⟨b, hb, beq_self_eq_true _⟩

/-! ## Words that are printed -/

namespace Cursor

variable {c : Cursor} {rest : List Char}

theorem keyword_of_word (word : String) (blanks : List Char) (hword : Token.IsName word.toList)
    (hrest : ∀ x, rest.head? = some x → Token.isIdentRest x = false)
    (hblanks : blanks.all Token.isSpace = true) (hc : c.rest = blanks ++ (word.toList ++ rest)) :
    ∃ d, c.keyword word = .ok d ∧ d.rest = rest := by
  obtain ⟨l, hl, ht, hnext⟩ :=
    next_of_token (t := .ident word) (.keyword word) blanks hword hrest hblanks hc
  exact ⟨l.next, keyword_eq_ok.2 ⟨l, expect_eq_ok.2 ⟨hl, ht⟩, rfl⟩, hnext⟩

theorem ident_of_word {word : String} (x : Expectation) (blanks : List Char)
    (hword : Token.IsName word.toList)
    (hrest : ∀ x, rest.head? = some x → Token.isIdentRest x = false)
    (hblanks : blanks.all Token.isSpace = true) (hc : c.rest = blanks ++ (word.toList ++ rest)) :
    ∃ d, c.ident x = .ok (word, d) ∧ d.rest = rest := by
  obtain ⟨l, hl, ht, hnext⟩ := next_of_token (t := .ident word) x blanks hword hrest hblanks hc
  exact ⟨l.next, ident_eq_ok.2 ⟨l, hl, ht, rfl⟩, hnext⟩

end Cursor

/-! ## Statements -/

namespace Needed

/-- What stands between the words `import` and `from` when nothing else is needed. -/
def clause (n : Needed) : List Char :=
  match n.kind with
  | .named => "\x7b ".toList ++ (n.specifier.toList ++ " \x7d".toList)
  | .default => n.localName.toList
  | .whole => "* as ".toList ++ n.localName.toList

/-- What stands behind it. -/
def source (n : Needed) : List Char :=
  " from".toList ++ (" \"".toList ++ n.package.toList ++ "\"".toList ++ ";".toList)

/-- The statement for one need. -/
def statement (n : Needed) : List Char := "import ".toList ++ (n.clause ++ n.source)

theorem lines_singleton (n : Needed) : lines [n] = [String.ofList n.statement] := by
  have hentries : (OrderedMap.empty.insert n.package [n.specifier]).entries =
      [(n.package, [n.specifier])] := rfl
  have hempty : (OrderedMap.empty : OrderedMap (List String)).entries = [] := rfl
  have hnone : (OrderedMap.empty : OrderedMap (List String)).get? n.package = none := rfl
  have hline : ∃ s, lines [n] = [s] ∧ s.toList = n.statement := by
    unfold statement clause source
    cases hkind : n.kind with
    | named =>
      refine ⟨"import \x7b " ++ n.specifier ++ " \x7d from \"" ++ n.package ++ "\";", ?_, by simp⟩
      simp [lines, byPackage, singleLine?, hkind, hentries, hnone, addNew]
    | default =>
      refine ⟨"import " ++ n.localName ++ " from \"" ++ n.package ++ "\";", ?_, by simp⟩
      simp [lines, byPackage, singleLine?, hkind, hempty]
    | whole =>
      refine ⟨"import * as " ++ n.localName ++ " from \"" ++ n.package ++ "\";", ?_, by simp⟩
      simp [lines, byPackage, singleLine?, hkind, hempty]
  obtain ⟨s, hs, hstatement⟩ := hline
  rw [hs, ← hstatement, String.ofList_toList]

/-- What the statement gives a meaning. -/
def binding (n : Needed) : Binding :=
  match n.kind with
  | .named => ⟨n.imported, n.localName, .named⟩
  | .default => ⟨"default", n.localName, .default⟩
  | .whole => ⟨"*", n.localName, .whole⟩

@[simp] theorem localName_binding (n : Needed) : n.binding.localName = n.localName := by
  cases n with
  | mk _ _ _ kind => cases kind <;> rfl

/-- The names of a need are names, and its package can stand between quotes. -/
structure IsNamed (n : Needed) : Prop where
  imported : n.kind = .named → Token.IsName n.imported.toList
  localName : Token.IsName n.localName.toList
  package : Token.Escaped '"' n.package.toList

variable {n : Needed} {c : Cursor} {rest : List Char}

/-- A printed name is read when neither more of a name nor another name for it follows. -/
theorem localName_of_specifier (h : n.IsNamed) (hkind : n.kind = .named)
    (hrest : ∀ x, rest.head? = some x → Token.isIdentRest x = false)
    (has : ∀ d : Cursor, d.rest = rest → d.peek?.any (·.token == .ident "as") = false)
    (hc : c.rest = ' ' :: (n.specifier.toList ++ rest)) :
    ∃ l d, c.next .importedName = .ok l ∧ l.token = .ident n.imported ∧
      l.next.localName n.imported = .ok (n.localName, d) ∧ d.rest = rest := by
  have himported := h.imported hkind
  unfold specifier at hc
  by_cases hsame : n.imported = n.localName
  · rw [if_pos hsame] at hc
    obtain ⟨l, hl, ht, hnext⟩ := next_of_token (t := .ident n.imported) .importedName [' '] himported
      hrest rfl hc
    refine ⟨l, l.next, hl, ht, ?_, hnext⟩
    rw [Cursor.localName, has _ hnext, if_neg Bool.false_ne_true, hsame]
  · rw [if_neg hsame] at hc
    have hwords : c.rest = [' '] ++ ((Token.ident n.imported).chars ++ ([' '] ++ ("as".toList ++
        (' ' :: (n.localName.toList ++ rest))))) := by
      rw [hc]
      simp [Token.chars]
    obtain ⟨l, hl, ht, has⟩ :=
      next_of_token (t := .ident n.imported) .importedName [' '] himported (by rintro _ ⟨⟩; decide) rfl hwords
    obtain ⟨k, hk, hkrest⟩ := keyword_of_word "as" [' '] ⟨_, _, rfl, by decide, by decide⟩
      (by rintro _ ⟨⟩; decide) rfl has
    obtain ⟨d, hd, hdrest⟩ := ident_of_word .localName [' '] h.localName hrest rfl hkrest
    obtain ⟨a, ha, hat, _⟩ := peek?_of_token (t := .ident "as") [' ']
      ⟨_, _, rfl, by decide, by decide⟩ (by rintro _ ⟨⟩; decide) rfl has
    refine ⟨l, d, hl, ht, ?_, hdrest⟩
    rw [Cursor.localName, ha, Option.any_some, hat, if_pos (beq_self_eq_true _)]
    exact bind_eq_ok.2 ⟨k, hk, hd⟩

theorem no_as_of_brace (hc : c.rest = " \x7d".toList ++ rest) :
    c.peek?.any (·.token == .ident "as") = false := by
  obtain ⟨b, hb, hbt, _⟩ := peek?_of_token (t := .rightBrace) [' '] trivial trivial rfl hc
  rw [hb, Option.any_some, hbt]
  rfl

theorem binding_of_specifier {m : Needed} (hn : n.IsNamed) (hm : m.IsNamed)
    (hnkind : n.kind = .named) (hmkind : m.kind = .named) (h : n.specifier = m.specifier) :
    n.binding = m.binding := by
  let c := ofText (' ' :: (n.specifier.toList ++ " \x7d".toList))
  have hown : c.rest = ' ' :: (n.specifier.toList ++ " \x7d".toList) := rfl
  have hbrace : ∀ d : Cursor, d.rest = " \x7d".toList →
      d.peek?.any (·.token == .ident "as") = false := fun d hd =>
    no_as_of_brace (hd.trans (List.append_nil _).symm)
  obtain ⟨l, d, hl, ht, hname, _⟩ :=
    localName_of_specifier hn hnkind (by rintro _ ⟨⟩; decide) hbrace hown
  obtain ⟨l', d', hl', ht', hname', _⟩ :=
    localName_of_specifier hm hmkind (by rintro _ ⟨⟩; decide) hbrace (h ▸ hown)
  cases hl.symm.trans hl'
  have himported : n.imported = m.imported := Token.ident.inj (ht.symm.trans ht')
  rw [himported, hname'] at hname
  have hlocal : m.localName = n.localName := (Prod.mk.inj (Except.ok.inj hname)).1
  rw [binding, binding, hnkind, hmkind, himported, hlocal]

/-- The names of some needs, one behind the other. -/
def specifiers (ns : List Needed) : List Char :=
  List.intercalate ", ".toList (ns.map (·.specifier.toList))

theorem namedBindings_of_specifiers {ns : List Needed} (hne : ns ≠ [])
    (h : ∀ n ∈ ns, n.IsNamed ∧ n.kind = .named) : ∀ {c : Cursor},
    c.rest = ' ' :: (specifiers ns ++ (" \x7d".toList ++ rest)) →
    ∃ d, c.namedBindings = .ok (ns.map binding, d) ∧ d.rest = rest := by
  induction ns with
  | nil => exact absurd rfl hne
  | cons n ns ih =>
    obtain ⟨⟨hn, hkind⟩, hns⟩ := List.forall_mem_cons.1 h
    have hbinding : n.binding = ⟨n.imported, n.localName, .named⟩ := by rw [binding, hkind]
    intro c hc
    rw [List.map_cons, hbinding]
    cases ns with
    | nil =>
      have hlast : specifiers [n] = n.specifier.toList := by simp [specifiers]
      rw [hlast] at hc
      obtain ⟨l, d, hl, ht, hname, hd⟩ :=
        localName_of_specifier hn hkind (by rintro _ ⟨⟩; decide) (fun _ => no_as_of_brace) hc
      obtain ⟨e, he, het, herest⟩ := next_of_token (t := .rightBrace) .importedName [' '] trivial
        trivial rfl hd
      have hskip : d.skip .comma = d := skip_of_ne (peek?_of_next he) (by rw [het]; decide)
      exact ⟨e.next, namedBindings_ident hl ht hname (by rw [hskip]; exact namedBindings_rightBrace he het),
        herest⟩
    | cons m ms =>
      have hmore : specifiers (n :: m :: ms) =
          n.specifier.toList ++ (',' :: ' ' :: specifiers (m :: ms)) := by
        simp [specifiers, List.intercalate_cons_cons]
      rw [hmore, List.append_assoc, List.cons_append, List.cons_append] at hc
      have has : ∀ d : Cursor,
          d.rest = ',' :: ' ' :: (specifiers (m :: ms) ++ (" \x7d".toList ++ rest)) →
          d.peek?.any (·.token == .ident "as") = false := by
        intro d hd
        obtain ⟨b, hb, hbt, _⟩ := peek?_of_token (t := .comma) [] trivial trivial rfl hd
        rw [hb, Option.any_some, hbt]
        rfl
      obtain ⟨l, d, hl, ht, hname, hd⟩ :=
        localName_of_specifier hn hkind (by rintro _ ⟨⟩; decide) has hc
      obtain ⟨b, hb, hbt, hbrest⟩ := peek?_of_token (t := .comma) [] trivial trivial rfl hd
      have hskip : (d.skip .comma).rest =
          ' ' :: (specifiers (m :: ms) ++ (" \x7d".toList ++ rest)) := by
        rw [skip_of_eq hb hbt, hbrest]
      obtain ⟨e, he, herest⟩ := ih (List.cons_ne_nil _ _) hns hskip
      exact ⟨e, namedBindings_ident hl ht hname he, herest⟩

/-- What stands between the words `import` and `from` when these bindings are read. -/
def IsClause (clause : List Char) (bs : List Binding) : Prop :=
  ∀ (c : Cursor) (rest : List Char), (∀ x, rest.head? = some x → Token.isIdentRest x = false) →
    c.rest = ' ' :: (clause ++ (" from".toList ++ rest)) →
    ∃ d, c.importClause = .ok (bs, d) ∧ d.rest = " from".toList ++ rest

theorem isClause_specifiers {ns : List Needed} (hne : ns ≠ [])
    (h : ∀ n ∈ ns, n.IsNamed ∧ n.kind = .named) :
    IsClause ("\x7b ".toList ++ (specifiers ns ++ " \x7d".toList)) (ns.map binding) := by
  intro c rest _ hc
  have hnames : c.rest = [' '] ++ (Token.leftBrace.chars ++
      (' ' :: (specifiers ns ++ (" \x7d".toList ++ (" from".toList ++ rest))))) := by
    rw [hc]
    simp [Token.chars]
  obtain ⟨b, hb, hbt, hbrest⟩ := next_of_token (t := .leftBrace) .importClause [' '] trivial trivial
    rfl hnames
  obtain ⟨d, hd, hdrest⟩ := namedBindings_of_specifiers hne h hbrest
  exact ⟨d, by rw [importClause_leftBrace hb hbt, hd], hdrest⟩

theorem isClause_clause (h : n.IsNamed) : IsClause n.clause [n.binding] := by
  cases hkind : n.kind with
  | named =>
    have hone := isClause_specifiers (List.cons_ne_nil n []) (List.forall_mem_singleton.2 ⟨h, hkind⟩)
    have hclause : n.clause = "\x7b ".toList ++ (specifiers [n] ++ " \x7d".toList) := by
      simp [clause, hkind, specifiers]
    rwa [hclause]
  | default =>
    intro c rest hrest hc
    unfold clause at hc
    unfold binding
    rw [hkind] at hc ⊢
    obtain ⟨l, hl, ht, hnext⟩ := next_of_token (t := .ident n.localName) .importClause [' ']
      h.localName (by rintro _ ⟨⟩; decide) rfl hc
    obtain ⟨f, hf, hft, _⟩ := peek?_of_token (t := .ident "from") [' ']
      ⟨_, _, rfl, by decide, by decide⟩ hrest rfl hnext
    refine ⟨l.next, ?_, hnext⟩
    rw [importClause_default hl ht, hf, Option.any_some, hft, if_neg (by decide)]
  | whole =>
    intro c rest hrest hc
    unfold clause at hc
    unfold binding
    rw [hkind] at hc ⊢
    have hwords : c.rest = [' '] ++ (Token.star.chars ++ ([' '] ++ ("as".toList ++
        (' ' :: (n.localName.toList ++ (" from".toList ++ rest)))))) := by
      rw [hc]
      simp [Token.chars]
    obtain ⟨l, hl, ht, hnext⟩ := next_of_token (t := .star) .importClause [' '] trivial trivial rfl
      hwords
    obtain ⟨k, hk, hkrest⟩ := keyword_of_word "as" [' '] ⟨_, _, rfl, by decide, by decide⟩
      (by rintro _ ⟨⟩; decide) rfl hnext
    obtain ⟨d, hd, hdrest⟩ := ident_of_word .namespaceName [' '] h.localName
      (by rintro _ ⟨⟩; decide) rfl hkrest
    exact ⟨d, importClause_star hl ht hk hd, hdrest⟩

/-- A text that is read as an import statement with these names wherever it stands. -/
structure IsLine (line : List Char) (names : String × List Binding) : Prop where
  head : line.head? = some 'i'
  reads : ∀ (c : Cursor) (rest : List Char), c.rest = line ++ rest →
    ∃ i d, c.importStatement = .ok (i, d) ∧ i.names = names ∧ d.rest = rest

theorem isLine_of_isClause {clause : List Char} {bs : List Binding} {package : String}
    (hclause : IsClause clause bs) (hpackage : Token.Escaped '"' package.toList) :
    IsLine ("import ".toList ++ (clause ++ (" from".toList ++
      (" \"".toList ++ package.toList ++ "\"".toList ++ ";".toList)))) (package, bs) := by
  refine ⟨rfl, fun c rest hc => ?_⟩
  have hchars : (Token.string .double package).chars = '"' :: package.toList ++ ['"'] := rfl
  have hquote : ∀ x, ([' '] ++ ((Token.string .double package).chars ++ ';' :: rest)).head? =
      some x → Token.isIdentRest x = false := by
    rintro _ ⟨⟩
    decide
  have hwords : c.rest = [] ++ ("import".toList ++ (' ' :: (clause ++ (" from".toList ++
      ([' '] ++ ((Token.string .double package).chars ++ ';' :: rest)))))) := by
    rw [hc, hchars]
    simp
  obtain ⟨k, hk, hkrest⟩ := keyword_of_word "import" [] ⟨_, _, rfl, by decide, by decide⟩
    (by rintro _ ⟨⟩; decide) rfl hwords
  obtain ⟨d, hd, hdrest⟩ := hclause k _ hquote hkrest
  obtain ⟨f, hf, hfrest⟩ := keyword_of_word "from" [' '] ⟨_, _, rfl, by decide, by decide⟩ hquote
    rfl hdrest
  obtain ⟨s, hs, hst, hsrest⟩ := next_of_token (t := .string .double package) .packageName [' ']
    hpackage trivial rfl hfrest
  obtain ⟨e, he, het, herest⟩ := peek?_of_token (t := .semicolon) [] trivial trivial rfl hsrest
  refine ⟨⟨package, bs, c.span (s.next.skip .semicolon)⟩, s.next.skip .semicolon, ?_, rfl, ?_⟩
  · refine bind_eq_ok.2 ⟨k, hk, bind_eq_ok.2 ⟨_, hd, bind_eq_ok.2 ⟨f, hf, ?_⟩⟩⟩
    refine bind_eq_ok.2 ⟨s, hs, ?_⟩
    rw [hst]
    rfl
  · rw [skip_of_eq he het, herest]

theorem isLine_statement (h : n.IsNamed) : IsLine n.statement (n.package, [n.binding]) :=
  isLine_of_isClause (isClause_clause h) h.package

theorem prelude_of_statement (h : n.IsNamed) (hrest : ∀ x, rest.head? = some x → x = '<')
    (hc : c.rest = n.statement ++ '\n' :: rest) :
    ∃ i d, c.prelude = .ok ([i], d) ∧ i.names = (n.package, [n.binding]) ∧ d.rest = rest := by
  have hskip : c.skipTrivia = c :=
    skipTrivia_of_head (x := 'i') (by rw [hc]; rfl) (by decide) (by decide)
  obtain ⟨i, d, hi, hnames, hd⟩ := (isLine_statement h).reads c _ hc
  have htrivia : (ofText ('\n' :: rest)).skipTrivia.rest = rest := by
    have happend := skipTrivia_append isTrivia_lineFeed rest
    rw [List.singleton_append] at happend
    rw [happend]
    cases rest with
    | nil => rw [skipTrivia_of_nil rfl]; rfl
    | cons x r =>
      obtain rfl := hrest x rfl
      rw [skipTrivia_of_less (c := ofText ('<' :: r)) rfl]
      rfl
  have hends : EndsImports ('\n' :: rest) := endsImports_of_head (by rwa [htrivia])
  refine ⟨i, d.skipTrivia, ?_, hnames, ?_⟩
  · exact prelude_cons (by rwa [hskip]) (prelude_nil (hends.no_import hd))
  · rw [skipTrivia_rest (show d.rest = (ofText ('\n' :: rest)).rest from hd), htrivia]

theorem isImportBlock_statement (h : n.IsNamed) :
    IsImportBlock (n.statement ++ ['\n']) ∧
      (Import.ofBlock (n.statement ++ ['\n'])).map Import.names = [(n.package, [n.binding])] := by
  have hline : (ofText (n.statement ++ ['\n'] ++ ['<'])).rest = n.statement ++ '\n' :: ['<'] := by
    simp [ofText]
  obtain ⟨i, d, hprelude, hnames, hd⟩ := prelude_of_statement h (by rintro _ ⟨⟩; rfl) hline
  refine ⟨⟨_, _, hprelude, hd⟩, ?_⟩
  rw [Import.ofBlock, hprelude, List.map_singleton, hnames]

theorem readAll_statement (h : n.IsNamed) :
    ∃ i, Import.readAll (String.ofList (n.statement ++ ['\n'])) = .ok [i] ∧
      i.names = (n.package, [n.binding]) := by
  have hline : (ofText (n.statement ++ ['\n'])).rest = n.statement ++ '\n' :: [] := rfl
  obtain ⟨i, d, hprelude, hnames, _⟩ := prelude_of_statement h (by rintro _ ⟨⟩) hline
  refine ⟨i, ?_, hnames⟩
  rw [Import.readAll, String.toList_ofList, hprelude]
  rfl

end Needed

end PageEditor
