import PageEditor.Markup.MissingImports
import PageEditor.Proofs.Markup.Imports

/-!
# Added imports

Import statements that are put behind the imports of a page, or in front of a page that has none, are
read as further imports, and what stands behind the imports stays as it was.
-/
set_option autoImplicit false

namespace PageEditor

open Cursor

/-! ## Blocks of imports -/

/-- A text that is read as import statements in front of a tag. -/
def IsImportBlock (block : List Char) : Prop :=
  ∃ is d, (ofText (block ++ ['<'])).prelude = .ok (is, d) ∧ d.rest = ['<']

/-- The imports that are read from a block. -/
def Import.ofBlock (block : List Char) : List Import :=
  match (ofText (block ++ ['<'])).prelude with
  | .ok (is, _) => is
  | .error _ => []

instance (block : List Char) : Decidable (IsImportBlock block) :=
  match h : (ofText (block ++ ['<'])).prelude with
  | .ok (is, d) =>
    if hd : d.rest = ['<'] then .isTrue ⟨is, d, h, hd⟩
    else .isFalse fun ⟨_, _, h', hd'⟩ => hd (by cases h.symm.trans h'; exact hd')
  | .error _ => .isFalse fun ⟨_, _, h', _⟩ => by cases h.symm.trans h'

variable {block new source : List Char} {is js : List Import} {c d e : Cursor}

theorem isImportBlock_nil : IsImportBlock [] := by decide +kernel

theorem Cursor.EndsImports.congr {old : List Char} (h : EndsImports old)
    (hrest : (ofText new).skipTrivia.rest = (ofText old).skipTrivia.rest) : EndsImports new :=
  ⟨hrest ▸ h.semicolon, no_import_of_rest hrest h.statement⟩

theorem IsImportBlock.prelude (h : IsImportBlock block) (hends : EndsImports new)
    (hc : c.rest = block ++ new) :
    ∃ (is : List Import) (e : Cursor), c.prelude = .ok (is, e.skipTrivia) ∧
      is.map Import.names = (Import.ofBlock block).map Import.names ∧ e.rest = new := by
  obtain ⟨is, d, hprelude, hd⟩ := h
  have hup : (ofText (block ++ ['<'])).upTo d = block := upTo_of_append (by rw [hd]; rfl)
  rw [Import.ofBlock, hprelude]
  exact prelude_grafted hprelude (hd ▸ List.cons_ne_nil _ _) hends (by rw [hup, hc])

/-- A block begins with an import, if with anything, and so not with a semicolon. -/
theorem IsImportBlock.semicolon (h : IsImportBlock block) (hends : EndsImports new) :
    (ofText (block ++ new)).skipTrivia.rest.head? ≠ some ';' := by
  obtain ⟨is, e, hprelude, _, he⟩ := h.prelude hends (c := ofText (block ++ new)) rfl
  obtain ⟨x, hx, hend⟩ := readsImports_of_prelude hprelude
  cases hx with
  | nil =>
    have hskip : e.skipTrivia.rest = (ofText new).skipTrivia.rest := skipTrivia_rest he
    rw [prelude_eq_nil hend, hskip]
    exact hends.semicolon
  | cons hi hmore =>
    obtain ⟨r, hr⟩ := (ReadsImports.cons hi hmore).head (List.cons_ne_nil _ _)
    rw [hr]
    rintro ⟨⟩

/-! ## Putting them in -/

theorem prelude_congr (h : c.skipTrivia = d.skipTrivia) : c.prelude = d.prelude := by
  rw [Cursor.prelude.eq_def c, Cursor.prelude.eq_def d]
  generalize c.skipTrivia = c' at h ⊢
  subst h
  rfl

theorem isTrivia_lineFeed : IsTrivia ['\n'] := isTrivia_of_blanks (by decide)

/-- The block stands where the imports end, with line feeds in front of it or behind it. -/
theorem insertBlock_eq (hread : ReadsImports (ofText source) is e) (block : List Char) :
    ∃ front back, IsTrivia front ∧ IsTrivia back ∧
      Import.insertBlock source is block =
        (ofText source).upTo e ++ (front ++ (block ++ (back ++ e.rest))) := by
  rw [Import.insertBlock]
  cases hlast : is.getLast? with
  | none =>
    rw [List.getLast?_eq_none_iff.1 hlast] at hread
    cases hread
    refine ⟨[], if source.head? = some '\n' then ['\n'] else ['\n', '\n'], isTrivia_nil, ?_, ?_⟩
    · split
      · exact isTrivia_lineFeed
      · exact isTrivia_lineFeed.append isTrivia_lineFeed
    · rw [upTo_self, List.append_assoc]
      rfl
  | some i =>
    have hoffset := hread.leads.offset
    rw [← hread.stop i hlast, ofText, Nat.zero_add] at hoffset
    have hsplit := Text.splitBytes_eq_some.2
      ⟨(upTo_ofText_append_rest hread.leads).symm, hoffset⟩
    refine ⟨['\n'], [], isTrivia_lineFeed, isTrivia_nil, ?_⟩
    simp only [hsplit, List.append_assoc, List.cons_append, List.nil_append]

/-- The imports of a text into which a block was put are those of the text and then those of the
block, and what was read behind them is left. -/
theorem prelude_insertBlock (hread : ReadsImports (ofText source) is e) (hends : EndsImports e.rest)
    (hblock : IsImportBlock block) :
    ∃ is' d, (ofText (Import.insertBlock source is block)).prelude = .ok (is', d) ∧
      is'.map Import.names = (is ++ Import.ofBlock block).map Import.names ∧
      d.rest = e.skipTrivia.rest := by
  obtain ⟨front, back, hfront, hback, hinsert⟩ := insertBlock_eq hread block
  have hskip := skipTrivia_append hback e.rest
  have hends' := hends.congr hskip
  have hsemicolon := hblock.semicolon hends'
  rw [← skipTrivia_append hfront] at hsemicolon
  have htext : (ofText (Import.insertBlock source is block)).rest = _ := hinsert
  obtain ⟨is₁, e₁, hread₁, hnames₁, he₁, -⟩ := hread.grafted hsemicolon htext
  obtain ⟨is₂, e₂, hprelude₂, hnames₂, he₂⟩ := hblock.prelude hends' (advance_rest_append he₁)
  rw [← prelude_congr (hfront e₁ _ he₁)] at hprelude₂
  refine ⟨is₁ ++ is₂, _, hread₁.prelude hprelude₂, ?_, ?_⟩
  · rw [List.map_append, List.map_append, hnames₁, hnames₂]
  · have hrest : e₂.skipTrivia.rest = (ofText (back ++ e.rest)).skipTrivia.rest := skipTrivia_rest he₂
    exact hrest.trans (hskip.trans (skipTrivia_rest rfl))

/-! ## What they name -/

theorem Import.resolve?_append (is js : List Import) (localName : String) :
    resolve? (is ++ js) localName = (resolve? is localName).or (resolve? js localName) :=
  List.findSome?_append

theorem ComponentInfo.ofTag?_congr {is js : List Import} {tag : String}
    (h : Import.resolve? is (baseName tag) = Import.resolve? js (baseName tag)) :
    ofTag? is tag = ofTag? js tag := by
  rw [baseName] at h
  simp only [ofTag?, h]

end PageEditor
