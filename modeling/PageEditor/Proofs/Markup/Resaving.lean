import Mathlib.Data.List.Forall2
import PageEditor.Proofs.Markup.AddedImports
import PageEditor.Proofs.Markup.Fitting
import PageEditor.Proofs.Markup.Retouched

/-!
# Edited pages that are read again

Whatever has been done to a page that was read, the text that is written of it is read as a page with
the same elements in the same places, if its top-level nodes are elements, what is written anew can be
printed, and the statements for missing imports can be read.
-/
set_option autoImplicit false

namespace PageEditor

open Cursor

/-! ## The top of a page -/

/-- A text that is read at the top of a page as elements in this relation to the nodes. Other elements
stand in front of it unless `first` is set. -/
def TopReads (R : Node → Markup → Prop) (first : Bool) (ns : List Node) (cs : List Char) : Prop :=
  ∀ c : Cursor, c.skipTrivia.rest = (ofText cs).skipTrivia.rest →
    ∃ ms, c.elements first = .ok ms ∧ List.Forall₂ R ns ms

section Top

variable {R : Node → Markup → Prop} {first : Bool} {n : Node} {ns : List Node}
  {a cs tail source : List Char} {region : Span}

theorem topReads_end {c : Cursor} (h : c.elements false = .ok []) : TopReads R false [] c.rest := by
  intro d hd
  have hrest : (ofText c.rest).skipTrivia.rest = c.skipTrivia.rest := skipTrivia_rest rfl
  refine ⟨[], elements_eq_nil_iff.2 ?_, .nil⟩
  rw [hd, hrest]
  exact elements_eq_nil_iff.1 h

theorem TopReads.trivia (h : TopReads R first ns cs) (ha : IsTrivia a) :
    TopReads R first ns (a ++ cs) :=
  fun c hc => h c (hc.trans (skipTrivia_append ha cs))

theorem IsElementWith.topReads (ha : IsElementWith (R n) a) (h : TopReads R false ns cs) :
    TopReads R first (n :: ns) (a ++ cs) := by
  intro c hc
  obtain ⟨r, hr⟩ := ha.head
  have htext : (ofText (a ++ cs)).rest = '<' :: (r ++ cs) := by
    rw [hr]
    rfl
  have hhere : c.skipTrivia.rest = a ++ cs := by
    rw [hc, skipTrivia_of_less htext]
    rfl
  obtain ⟨m, hm, hnm⟩ := ha.reads c.skipTrivia cs hhere
  obtain ⟨ms, hms, hall⟩ := h (c.skipTrivia.advance a.length) (skipTrivia_rest (advance_rest_append hhere))
  refine ⟨m :: ms, ?_, .cons hnm hall⟩
  rw [← elements_congr (skipTrivia_skipTrivia c)]
  exact elements_cons (hhere.trans htext) hm hms

theorem TopReads.opens (h : TopReads R false (n :: ns) cs) : Opens cs := by
  obtain ⟨ms, hms, hall⟩ := h (ofText cs) rfl
  rcases elements_eq_ok hms with rfl | ⟨_, _, _, r, _, hr, _⟩
  · cases hall
  · exact ⟨r, hr⟩

theorem TopReads.of_opens (h : TopReads R false ns cs) (hopens : Opens cs) :
    TopReads R true ns cs := by
  intro c hc
  obtain ⟨r, hr⟩ := hopens
  obtain ⟨ms, hms, hall⟩ := h c hc
  rw [hr] at hc
  rw [elements_of_less hc] at hms
  exact ⟨ms, (elements_of_less hc).trans hms, hall⟩

theorem topReads_patchedTop (hns : ∀ n ∈ ns, IsElementWith (R n) (n.patched source 0))
    (htail : TopReads R false [] tail) :
    TopReads R false ns (Node.patchedTop source ns ++ tail) := by
  induction ns with
  | nil => exact htail
  | cons n ns ih =>
    obtain ⟨hn, hns⟩ := List.forall_mem_cons.1 hns
    by_cases hnil : ns = []
    · subst hnil
      exact hn.topReads htail
    · rw [Node.patchedTop_cons hnil, List.append_assoc]
      exact hn.topReads ((ih hns).trivia isTrivia_lineFeed)

theorem topReads_patchedBetween (hns : ∀ n ∈ ns, IsElementWith (R n) (n.patched source 0))
    (htail : TopReads R false [] tail) {start : Nat} (hin : Node.inOrder source start ns = true)
    (hgaps : Gaps IsTrivia source region ns) :
    TopReads R false ns (Node.patchedBetween source 0 region ns ++ tail) := by
  induction ns generalizing region start with
  | nil => exact htail.trivia hgaps
  | cons n ns ih =>
    obtain ⟨hn, hns⟩ := List.forall_mem_cons.1 hns
    obtain ⟨o, ho, hgap, hin, hmore⟩ := gaps_cons hin hgaps
    rw [Node.patchedBetween_cons ho, List.append_assoc, List.append_assoc]
    exact (hn.topReads (ih hns hin hmore)).trivia hgap

theorem mirrors_of_forall₂ {ms : List Markup} (h : List.Forall₂ Node.MirroredBy ns ms) :
    Mirrors ms ns := by
  induction h with
  | nil => exact .nil
  | cons hn _ ih => exact hn _ _ ih

end Top

/-! ## Where the elements stand -/

/-- The imports of a page that was read, up to `e`, and its elements from `a` to `b`. -/
structure Page.Frame (source : List Char) (p : Page) (e a b : Cursor) : Prop where
  imports : ReadsImports (ofText source) p.imports e
  front : e.Leads a
  trivia : IsTrivia (e.upTo a)
  region : a.Leads b
  back : b.elements false = .ok []
  root : ∃ o, p.tree.root.originIn? source = some o ∧ o.place.span = a.span b ∧
    o.childIds = p.tree.root.childIds
  gaps : Gaps IsTrivia source (a.span b) p.tree.root.children
  known : Node.AllImprinted source (Node.nodesAll p.tree.root.children)

theorem Page.exists_frame {source key : String} {p : Page} (hp : Page.read source key = .ok p) :
    ∃ e a b, p.Frame source.toList e a b := by
  obtain ⟨imports, c, ms, hprelude, helements, rfl⟩ := Page.read_eq_ok hp
  obtain ⟨e, hread, hend⟩ := readsImports_of_prelude hprelude
  obtain rfl := prelude_eq_nil hend
  have hfresh := isFresh_root source.toList imports ms (.ofKey key)
  by_cases hms : ms = []
  · subst hms
    have hslice : Text.slice source.toList (e.span e) = some [] := by
      rw [slice_of_leads hread.leads (Leads.refl e), upTo_self]
    have hregion : Markup.region (Import.endOffset imports) [] = e.span e := by
      rw [hread.endOffset]
      rfl
    have hgap : IsTrivia (sliceOr source.toList (e.span e)) := by
      rw [sliceOr, hslice]
      exact isTrivia_nil
    simp only [hregion, hslice] at hfresh
    have hback := elements_eq_nil helements
    rw [skipTrivia_skipTrivia] at hback
    refine ⟨e, e, e, hread, Leads.refl e, by rw [upTo_self]; exact isTrivia_nil, Leads.refl e,
      elements_of_nil hback, ⟨_, hfresh.originIn? hslice, rfl, rfl⟩, hgap, ?_⟩
    exact ⟨by rintro _ ⟨⟩, by rintro _ ⟨⟩, by rintro _ ⟨⟩⟩
  · obtain ⟨b, htop⟩ := readsTop_of_elements _ true _ ms (Nat.le_refl _) helements hms
    rw [skipTrivia_skipTrivia] at htop
    obtain ⟨r, hr⟩ := htop.head
    have hc := hread.leads.trans (leads_skipTrivia e)
    exact ⟨e, e.skipTrivia, b, hread, leads_skipTrivia e,
      isTrivia_upTo_skipTrivia (hr ▸ List.cons_ne_nil _ _), htop.leads, htop.end,
      originIn?_ofParts imports _ hc htop,
      ((htop.row joins_isTrivia (fun _ hne => isTrivia_upTo_skipTrivia hne) hc).tiles imports hc _).gaps,
      allImprinted_ofParts imports _ htop hc⟩

theorem Page.readAll_of_read {source key : String} {p : Page} (hp : Page.read source key = .ok p) :
    Import.readAll source = .ok p.imports := by
  obtain ⟨imports, c, ms, hprelude, _, rfl⟩ := Page.read_eq_ok hp
  rw [Import.readAll, hprelude]
  rfl

/-! ## Nodes that remember their places -/

namespace Tree

variable {t₀ t : Tree}

theorem WellFormed.id_ne_root (h : t.WellFormed) {n : Node}
    (hn : n ∈ Node.nodesAll t.root.children) : n.id ≠ t.root.id := by
  have hnodup := h.nodup
  rw [Node.ids_eq, List.nodup_cons, Node.idsAll_eq_map] at hnodup
  intro hid
  exact hnodup.1 (hid ▸ List.mem_map_of_mem hn)

theorem Remembers.recalls (h : t₀.Remembers t) (ht : t.WellFormed) {n : Node}
    (hn : n ∈ Node.nodesAll t.root.children) : n.Recalls (Node.nodesAll t₀.root.children) := by
  intro horigin
  obtain ⟨k, hk, hmark, _⟩ := (h.nodes n (Node.mem_nodes_of_below hn)).kept horigin
  rw [Node.nodes_eq] at hk
  rcases List.mem_cons.1 hk with rfl | hk
  · exact absurd (congrArg Prod.fst (hmark.trans h.root.symm)) (ht.id_ne_root hn)
  · exact ⟨k, hk, hmark⟩

/-! ## The condition -/

/-- The statements for the imports that the tree needs and its page does not have. -/
def importBlock (t : Tree) (imports : List Import) : List Char :=
  (String.intercalate "\n" (Needed.lines (t.missing imports))).toList

/-- What makes sure that an edited page is read again as it is. -/
structure Legible (source : String) (t : Tree) : Prop where
  elements : ∀ n ∈ t.root.children, n.isLeaf = false
  printable : ∀ m ∈ Node.anewAll source.toList t.root.children, m.Printable
  imports : ∀ is, Import.readAll source = .ok is → IsImportBlock (t.importBlock is)

instance (source : String) (t : Tree) : Decidable (t.Legible source) :=
  decidable_of_iff ((∀ n ∈ t.root.children, n.isLeaf = false) ∧
      (∀ m ∈ Node.anewAll source.toList t.root.children, m.Printable) ∧
      ∀ is ∈ (Import.readAll source).toOption, IsImportBlock (t.importBlock is))
    ⟨fun h => ⟨h.1, h.2.1, fun is his => h.2.2 is (by rw [his]; rfl)⟩,
      fun h => ⟨h.elements, h.printable, fun is his => h.imports is (by
        cases hr : Import.readAll source with
        | ok js => rw [hr] at his; cases his; rfl
        | error e => rw [hr] at his; cases his)⟩⟩

theorem importBlock_of_missing_nil {imports : List Import} (h : t.missing imports = []) :
    t.importBlock imports = [] := by
  rw [importBlock, h]
  rfl

theorem missing_congr {is js : List Import} (h : is.map Import.names = js.map Import.names) :
    t.missing is = t.missing js := by
  simp only [missing, Import.resolve?_congr h]

end Tree

/-! ## Pages with new values -/

theorem Node.Imprint.isChanged {source : List Char} {n : Node} (h : n.Imprint source) :
    n.isChanged = false := by
  have hprops : ∀ {place : Place}, n.IsFresh place → n.fields.sameProps n.fields = true →
      n.propsChanged = false := by
    intro place hfresh hsame
    rw [propsChanged, hfresh]
    simp [hsame]
  have htext : ∀ {place : Place}, n.IsFresh place → n.textChanged = false := by
    intro place hfresh
    rw [textChanged, hfresh]
    simp
  rw [Node.isChanged]
  cases h with
  | text hfresh htype => simp [isLeaf, isText, htype, htext hfresh]
  | expression hfresh htype => simp [isLeaf, isExpression, htype, htext hfresh]
  | closed hfresh hread hsame => rw [isLeaf_of_isName hread.name, hprops hfresh hsame]; rfl
  | element hfresh hread hsame => rw [isLeaf_of_isName hread.name, hprops hfresh hsame]; rfl

section Values

variable {source key : String} {p : Page} {t : Tree} (hp : Page.read source key = .ok p)

include hp

theorem anewAll_of_outline (h : t.root.outline = p.tree.root.outline) :
    Node.anewAll source.toList t.root.children =
      (Node.nodesAll t.root.children).filter Node.isChanged := by
  obtain ⟨_, place, hfresh, _⟩ := tiles_of_read hp
  exact Node.anewAll_retouched _ (retouched_of_read hp h hfresh).2.2.1

theorem anewAll_of_read : Node.anewAll source.toList p.tree.root.children = [] := by
  obtain ⟨e, a, b, hframe⟩ := Page.exists_frame hp
  rw [anewAll_of_outline hp rfl, List.filter_eq_nil_iff]
  intro n hn
  rw [(hframe.known.imprint n hn).isChanged]
  exact Bool.false_ne_true

/-- All that such a page needs to be read again is that the nodes that have changed can be printed. -/
theorem legible_iff_of_outline (h : t.root.outline = p.tree.root.outline) :
    t.Legible source ↔
      ∀ n ∈ Node.nodesAll t.root.children, n.isChanged = true → n.Printable := by
  refine ⟨fun hlegible n hn hchanged => ?_, fun hprintable => ⟨fun n hn => ?_, fun n hn => ?_, ?_⟩⟩
  · refine hlegible.printable n ?_
    rw [anewAll_of_outline hp h]
    exact List.mem_filter.2 ⟨hn, hchanged⟩
  · obtain ⟨k, hk, houtline⟩ := Node.exists_mem_child h hn
    rw [Node.isLeaf_of_outline houtline]
    exact isLeaf_of_read hp k hk
  · rw [anewAll_of_outline hp h] at hn
    obtain ⟨hmem, hchanged⟩ := List.mem_filter.1 hn
    exact hprintable n hmem hchanged
  · intro is his
    obtain ⟨imports, c, ms, hprelude, _, rfl⟩ := Page.read_eq_ok hp
    rw [Page.readAll_of_read hp] at his
    cases his
    show IsImportBlock (t.importBlock imports)
    rw [Tree.importBlock_of_missing_nil (missing_of_outline h rfl)]
    exact isImportBlock_nil

end Values

/-! ## Edited pages -/

section Edited

variable {source : List Char} {p : Page} {e a b : Cursor} {t : Tree}

/-- What stands behind the imports in the text of an edited page. -/
def Tree.patchedBehind (t : Tree) (source : List Char) (e a b : Cursor) : List Char :=
  e.upTo a ++ (t.body source (a.span b) ++ b.rest)

theorem Page.Frame.exists_origin (hframe : p.Frame source e a b)
    (horigin : t.root.origin = p.tree.root.origin) :
    ∃ o, t.root.originIn? source = some o ∧ o.place.span = a.span b ∧
      o.childIds = p.tree.root.childIds := by
  obtain ⟨o, ho, hrest⟩ := hframe.root
  exact ⟨o, (Node.originIn?_congr horigin).trans ho, hrest⟩

theorem Page.Frame.patched_eq (hframe : p.Frame source e a b)
    (horigin : t.root.origin = p.tree.root.origin) :
    t.patched source = (ofText source).upTo e ++ t.patchedBehind source e a b := by
  obtain ⟨o, ho, hspan, _⟩ := hframe.exists_origin horigin
  have ha := hframe.imports.leads.trans hframe.front
  rw [patched_of_root ha hframe.region ho hspan, Tree.patchedBehind,
    ← hframe.imports.leads.upTo_append hframe.front, List.append_assoc]

variable (hframe : p.Frame source e a b) (hremembers : p.tree.Remembers t)

include hframe hremembers

theorem topReads_patchedBehind {R : Node → Markup → Prop} (ht : t.WellFormed)
    (hall : ∀ n ∈ t.root.children, IsElementWith (R n) (n.patched source 0)) :
    TopReads R false t.root.children (t.patchedBehind source e a b) := by
  have htail := topReads_end (R := R) hframe.back
  refine TopReads.trivia ?_ hframe.trivia
  rw [Tree.body]
  split
  · exact topReads_patchedTop hall htail
  · rename_i hlines
    rw [Tree.isRelined, Bool.or_eq_true, not_or, Bool.not_eq_true, Bool.not_eq_true,
      Bool.not_eq_false'] at hlines
    obtain ⟨hids, hin⟩ := hlines
    obtain ⟨o, ho, _, hchildIds⟩ := hframe.exists_origin (Node.origin_of_mark hremembers.root)
    rw [Node.childrenChanged, Node.origin_of_originIn? ho, bne_eq_false_iff_eq] at hids
    have horigins := Node.origins_of_childIds hframe.known (fun _ hm => Node.mem_nodesAll hm)
      (fun n hn => hremembers.recalls ht (Node.mem_nodesAll hn)) (Node.origin_ne_none_of_inOrder hin)
      (hids.symm.trans hchildIds)
    exact topReads_patchedBetween hall htail hin (gaps_of_origins horigins hframe.gaps)

end Edited

/-- If what is written of the top-level nodes can be read, and the statements for the missing imports
can be, too, what is saved of an edited page is read as a page with these elements and imports. -/
theorem Page.read_of_elements {R : Node → Markup → Prop} {source key : String} {p : Page} {t : Tree}
    (hp : Page.read source key = .ok p) (hremembers : p.tree.Remembers t) (ht : t.WellFormed)
    (hall : ∀ n ∈ t.root.children, IsElementWith (R n) (n.patched source.toList 0))
    (hblock : IsImportBlock (t.importBlock p.imports)) (hne : t.root.children ≠ [])
    (key' : String) :
    ∃ q ms, Page.read (t.regenerate source) key' = .ok q ∧
      q.tree.root.children = (Node.allOfMarkup q.imports (.ofKey key') ms).1 ∧
      List.Forall₂ R t.root.children ms ∧
      q.imports.map Import.names =
        (p.imports ++ Import.ofBlock (t.importBlock p.imports)).map Import.names := by
  obtain ⟨e, a, b, hframe⟩ := Page.exists_frame hp
  have hpatched : (ofText (t.patched source.toList)).rest = _ := hframe.patched_eq (Node.origin_of_mark hremembers.root)
  have htop := topReads_patchedBehind hframe hremembers ht hall
  generalize t.patchedBehind source.toList e a b = behind at hpatched htop
  obtain ⟨n, ns, hcons⟩ := List.exists_cons_of_ne_nil hne
  have hopens : Opens behind := by
    rw [hcons] at htop
    exact htop.opens
  have hends := endsImports_of_head hopens.head
  -- The imports of the old text are read again in front of the new one.
  obtain ⟨is, e', hread, hnames, hrest, -⟩ := hframe.imports.grafted hends.semicolon hpatched
  have hread' := hread.prelude (prelude_nil (hends.no_import hrest))
  rw [List.append_nil] at hread'
  have hmissing := t.missing_congr hnames
  -- What stands behind all imports is read as the elements, wherever it stands.
  have hlast : ∀ {text : List Char} {js : List Import} {d : Cursor},
      (ofText text).prelude = .ok (js, d) → d.rest = (ofText behind).skipTrivia.rest →
      ∃ q ms, Page.read (String.ofList text) key' = .ok q ∧
        q.tree.root.children = (Node.allOfMarkup q.imports (.ofKey key') ms).1 ∧
        List.Forall₂ R t.root.children ms ∧ q.imports = js := by
    intro text js d hprelude hd
    obtain ⟨ms, hms, hall⟩ := (htop.of_opens hopens) d (by rw [skipTrivia_of_prelude hprelude, hd])
    refine ⟨Page.ofParts text js ms (.ofKey key'), ms, ?_, rfl, hall, rfl⟩
    rw [Page.read, String.toList_ofList]
    exact bind_eq_ok.2 ⟨_, hprelude, bind_eq_ok.2 ⟨ms, hms, rfl⟩⟩
  rw [Tree.regenerate, Tree.syncImports, hread']
  simp only [hmissing]
  by_cases hnone : t.missing p.imports = []
  · rw [hnone, List.isEmpty_nil, if_pos rfl, Tree.importBlock_of_missing_nil hnone]
    obtain ⟨q, ms, hq, hchildren, hall, rfl⟩ := hlast hread' (skipTrivia_rest hrest)
    refine ⟨q, ms, hq, hchildren, hall, ?_⟩
    have hnil : Import.ofBlock [] = [] := by decide +kernel
    rw [hnil, List.append_nil, hnames]
  · rw [if_neg (by rwa [List.isEmpty_iff])]
    obtain ⟨is', d, hprelude, hnames', hd⟩ := prelude_insertBlock hread (hrest ▸ hends) hblock
    obtain ⟨q, ms, hq, hchildren, hall, rfl⟩ := hlast hprelude (hd.trans (skipTrivia_rest hrest))
    refine ⟨q, ms, hq, hchildren, hall, ?_⟩
    rw [hnames', List.map_append, List.map_append, hnames]

/-- Whatever has been done to a page, what is saved of it is read as a page with its elements and
the imports that were missing. -/
theorem Page.read_regenerate {source key : String} {p : Page} {t : Tree}
    (hp : Page.read source key = .ok p) (hremembers : p.tree.Remembers t) (ht : t.WellFormed)
    (hlegible : t.Legible source) (hne : t.root.children ≠ []) (key' : String) :
    ∃ q ms, Page.read (t.regenerate source) key' = .ok q ∧
      q.tree.root.children = (Node.allOfMarkup q.imports (.ofKey key') ms).1 ∧
      Mirrors ms t.root.children ∧
      q.imports.map Import.names =
        (p.imports ++ Import.ofBlock (t.importBlock p.imports)).map Import.names := by
  obtain ⟨_, _, _, hframe⟩ := Page.exists_frame hp
  have hall : ∀ n ∈ t.root.children, IsElementWith n.MirroredBy (n.patched source.toList 0) := by
    intro n hn
    have hspells := Node.spells_patched hframe.known 0 n
      (fun m hm => hremembers.recalls ht (Node.mem_nodesAll_iff.2 ⟨n, hn, hm⟩))
      fun m hm => hlegible.printable m (Node.mem_anewAll.2 ⟨n, hn, hm⟩)
    exact (hspells.2 (hlegible.elements n hn)).isElementWith
  have hblock := hlegible.imports p.imports (Page.readAll_of_read hp)
  obtain ⟨q, ms, hq, hchildren, hms, hnames⟩ :=
    Page.read_of_elements hp hremembers ht hall hblock hne key'
  exact ⟨q, ms, hq, hchildren, mirrors_of_forall₂ hms, hnames⟩

end PageEditor
