import PageEditor.Proofs.Markup.Kept

/-!
# Unchanged pages

A page that was read and not changed is written back as it was. The top-level elements stand one
behind the other in one region of the text, and the text around the region is kept. No import is
added, since each component got its package from the very imports that are looked at again.
-/
set_option autoImplicit false

namespace PageEditor

open Cursor

variable {source : List Char}

/-! ## Pages -/

theorem elements_eq_ok {first : Bool} {c : Cursor} {ms : List Markup}
    (h : c.elements first = .ok ms) :
    ms = [] ∨ ∃ m more after r, ms = m :: more ∧ c.skipTrivia.rest = '<' :: r ∧
      ReadsElement c.skipTrivia m after ∧ after.elements false = .ok more := by
  rw [elements] at h
  split at h
  · cases h
    exact .inl rfl
  · rename_i r hr
    split at h
    · cases h
    · rename_i m after hm
      split at h
      · cases h
      · rename_i more hmore
        cases h
        exact .inr ⟨m, more, after, r, rfl, hr, element_eq_ok.1 hm, hmore⟩
  · split at h
    · cases h
    · cases h
      exact .inl rfl

/-- The elements `ms`, at least one, stand from here to `stop` with blanks and comments between them,
and behind them there is no other element. -/
inductive ReadsTop : Cursor → List Markup → Cursor → Prop
  | one {c after : Cursor} {m : Markup} {r : List Char} (hr : c.rest = '<' :: r)
      (hm : ReadsElement c m after) (hend : after.elements false = .ok []) : ReadsTop c [m] after
  | cons {c after stop : Cursor} {m : Markup} {ms : List Markup} {r : List Char}
      (hr : c.rest = '<' :: r) (hm : ReadsElement c m after)
      (hms : ReadsTop after.skipTrivia ms stop) : ReadsTop c (m :: ms) stop

/-- By induction on the text that is left. -/
theorem readsTop_of_elements (n : Nat) : ∀ (first : Bool) (c : Cursor) (ms : List Markup),
    c.rest.length ≤ n → c.elements first = .ok ms → ms ≠ [] →
    ∃ stop, ReadsTop c.skipTrivia ms stop := by
  induction n with
  | zero =>
    intro first c ms hn h hne
    rcases elements_eq_ok h with rfl | ⟨m, more, after, r, rfl, _, hm, _⟩
    · exact absurd rfl hne
    · have hlt := element_length_lt (element_eq_ok.2 hm)
      have hle := c.skipTrivia_length_le
      omega
  | succ n ih =>
    intro first c ms hn h hne
    rcases elements_eq_ok h with rfl | ⟨m, more, after, r, rfl, hr, hm, hmore⟩
    · exact absurd rfl hne
    · have hlt := element_length_lt (element_eq_ok.2 hm)
      have hle := c.skipTrivia_length_le
      by_cases hnil : more = []
      · subst hnil
        exact ⟨after, .one hr hm hmore⟩
      · obtain ⟨stop, hstop⟩ := ih false after more (by simp only at hlt; omega) hmore hnil
        exact ⟨stop, .cons hr hm hstop⟩

theorem span_of_readsElement {c after : Cursor} {m : Markup} (h : ReadsElement c m after) :
    m.place.span = c.span after := by
  cases h <;> rfl

section ReadsTop

variable {c stop : Cursor} {ms : List Markup}

theorem ReadsTop.leads (h : ReadsTop c ms stop) : c.Leads stop := by
  induction h with
  | one _ hm _ => exact hm.leads
  | cons _ hm _ ih => exact hm.leads.trans ((leads_skipTrivia _).trans ih)

theorem ReadsTop.ne_nil (h : ReadsTop c ms stop) : ms ≠ [] := by
  cases h <;> exact List.cons_ne_nil _ _

theorem ReadsTop.region (h : ReadsTop c ms stop) (o : Nat) : Markup.region o ms = c.span stop := by
  induction h with
  | one _ hm _ => simp [Markup.region, span_of_readsElement hm, span]
  | @cons c after stop m ms r hr hm hms ih =>
    cases ms with
    | nil => exact absurd rfl hms.ne_nil
    | cons m' ms =>
      simp only [Markup.region, List.head?_cons, List.getLast?_cons_cons] at ih ⊢
      split at ih
      · rename_i last hl
        rw [hl]
        simp only [span, Span.mk.injEq] at ih ⊢
        rw [span_of_readsElement hm]
        exact ⟨rfl, ih.2⟩
      · rename_i hno
        exact absurd rfl (hno m' _ rfl)

theorem ReadsTop.kept (imports : List Import) (h : ReadsTop c ms stop) :
    KeptFrom source imports ms c stop := by
  induction h with
  | one _ hm _ =>
    exact keptFrom_cons (Leads.refl _) hm.leads (Leads.refl _)
      (fun hs g => kept_of_readsElement imports hm hs g) (keptFrom_nil imports (Leads.refl _))
  | @cons c after stop m ms r hr hm hms ih =>
    refine keptFrom_cons (Leads.refl _) hm.leads ((leads_skipTrivia after).trans hms.leads)
      (fun hs g => kept_of_readsElement imports hm hs g) ?_
    intro g b hb hbafter
    exact ih g b hb (hbafter.trans (leads_skipTrivia after))

end ReadsTop

theorem Cursor.ReadsImports.endOffset {e : Cursor} {imports : List Import}
    (h : ReadsImports (ofText source) imports e) : Import.endOffset imports = e.offset := by
  rw [Import.endOffset]
  cases hi : imports.getLast? with
  | none =>
    rw [List.getLast?_eq_none_iff.1 hi] at h
    cases h
    rfl
  | some i => exact h.stop i hi

theorem end_of_prelude {c : Cursor} {imports : List Import}
    (h : (ofText source).prelude = .ok (imports, c)) :
    ∃ e : Cursor, (ofText source).Leads e ∧ Import.endOffset imports = e.offset ∧
      e.skipTrivia = c := by
  obtain ⟨e, he, hend⟩ := readsImports_of_prelude h
  exact ⟨e, he.leads, he.endOffset, prelude_eq_nil hend⟩

theorem region_of_read {c : Cursor} {imports : List Import} {ms : List Markup}
    (hprelude : (ofText source).prelude = .ok (imports, c)) (helements : c.elements true = .ok ms) :
    ∃ s e : Cursor, (ofText source).Leads s ∧ s.Leads e ∧
      Markup.region (Import.endOffset imports) ms = s.span e ∧
      (ms = [] ∧ s = e ∨ ReadsTop s ms e) := by
  have hc := leads_of_prelude hprelude
  by_cases hnil : ms = []
  · subst hnil
    obtain ⟨e, he, hoffset, _⟩ := end_of_prelude hprelude
    refine ⟨e, e, he, Leads.refl e, ?_, .inl ⟨rfl, rfl⟩⟩
    rw [hoffset]
    rfl
  · obtain ⟨e, htop⟩ := readsTop_of_elements _ true c ms (Nat.le_refl _) helements hnil
    exact ⟨_, e, hc.trans (leads_skipTrivia c), htop.leads, htop.region _, .inr htop⟩

theorem patched_of_isFresh {t : Tree} {place : Place} (h : t.root.IsFresh place)
    (hs : Text.slice source place.span = some place.fragment.toList)
    (hin : Node.inOrder source 0 t.root.children = true) :
    t.patched source =
      sliceOr source ⟨0, place.span.start⟩
        ++ Node.patchedBetween source 0 place.span t.root.children
        ++ sliceOr source ⟨place.span.stop, Text.byteLength source⟩ := by
  simp [Tree.patched, h.originIn? hs, h.childrenChanged, hin]

theorem patched_ofParts {c : Cursor} {imports : List Import} {ms : List Markup}
    (hprelude : (ofText source).prelude = .ok (imports, c)) (helements : c.elements true = .ok ms)
    (ids : IdSource) : (Page.ofParts source imports ms ids).tree.patched source = source := by
  obtain ⟨s, e, hs, hse, hregion, htop⟩ := region_of_read hprelude helements
  have hkept : KeptFrom source imports ms s e := by
    rcases htop with ⟨rfl, rfl⟩ | htop
    · exact keptFrom_nil imports (Leads.refl s)
    · exact htop.kept imports
  have hnodes := hkept ids
  rw [Page.ofParts, hregion, slice_of_leads hs hse]
  generalize Node.allOfMarkup imports ids ms = made at hnodes
  obtain ⟨nodes, ids⟩ := made
  have hfresh := Node.isFresh_withPlace { Node.root with children := nodes }
    ⟨s.span e, ⟨s.offset, s.offset⟩, some (s.span e), String.ofList (s.upTo e)⟩
  have hin : Node.inOrder source 0 nodes = true := (hnodes _ (Leads.refl _) hs).inOrder
  have hbetween : Node.patchedBetween source 0 (s.span e) nodes = s.upTo e :=
    (hnodes s hs (Leads.refl s)).text 0
  have hfront : sliceOr source ⟨0, s.offset⟩ = (ofText source).upTo s := upTo_ofText hs
  have hback : sliceOr source ⟨e.offset, Text.byteLength source⟩ = e.rest :=
    sliceOr_rest (hs.trans hse)
  calc _ = sliceOr source ⟨0, s.offset⟩ ++ Node.patchedBetween source 0 (s.span e) nodes
        ++ sliceOr source ⟨e.offset, Text.byteLength source⟩ :=
        patched_of_isFresh (t := .around _ ids) hfresh (slice_fragment hs hse) hin
    _ = (ofText source).upTo s ++ s.upTo e ++ e.rest := by rw [hfront, hbetween, hback]
    _ = source := by rw [hs.upTo_append hse, upTo_ofText_append_rest (hs.trans hse)]

/-! ## Imports -/

/-- What the components of some nodes need is among the imports. -/
def AllNamed (imports : List Import) (ns : List Needed) : Prop :=
  ∀ x ∈ ns, (Import.resolve? imports x.localName).isSome

theorem package_of_ofTag? {imports : List Import} {tag : String} {i : ComponentInfo}
    (h : ComponentInfo.ofTag? imports tag = some i) (hpackage : i.package ≠ "") :
    (Import.resolve? imports (baseName tag)).isSome := by
  cases hresolve : Import.resolve? imports (baseName tag) with
  | some r => rfl
  | none =>
    rw [baseName] at hresolve
    simp only [ComponentInfo.ofTag?, hresolve, Option.ite_none_right_eq_some] at h
    obtain ⟨_, h⟩ := h
    cases h
    exact absurd rfl hpackage

theorem named_of_needed? {imports : List Import} {n : Node} {x : Needed}
    (hn : n.component = ComponentInfo.ofTag? imports n.type ∨ n.component = none)
    (h : n.needed? = some x) : (Import.resolve? imports x.localName).isSome := by
  rw [Node.needed?] at h
  split at h
  · cases h
  · rename_i i hi
    split at h
    · cases h
    · rename_i hpackage
      cases h
      obtain ⟨hcomponent, _⟩ := Option.filter_eq_some_iff.1 hi
      rcases hn with hn | hn
      · exact package_of_ofTag? (hn.symm.trans hcomponent) hpackage
      · cases hn.symm.trans hcomponent

theorem neededIn_append (ns ms : List Node) :
    Node.neededIn (ns ++ ms) = Node.neededIn ns ++ Node.neededIn ms := by
  induction ns with
  | nil => rfl
  | cons n ns ih => rw [List.cons_append, Node.neededIn, ih, Node.neededIn, List.append_assoc]

theorem neededAll_eq (n : Node) : n.neededAll = n.needed?.toList ++ Node.neededIn n.children := by
  cases n
  rw [Node.neededAll]

theorem allNamed_neededAll {imports : List Import} {n : Node}
    (hn : n.component = ComponentInfo.ofTag? imports n.type ∨ n.component = none)
    (hchildren : AllNamed imports (Node.neededIn n.children)) :
    AllNamed imports n.neededAll := by
  rw [neededAll_eq]
  intro x hx
  rcases List.mem_append.1 hx with hx | hx
  · exact named_of_needed? hn (Option.mem_toList.1 hx)
  · exact hchildren x hx

mutual

theorem allNamed_ofMarkup (imports : List Import) (g : IdSource) :
    (m : Markup) → AllNamed imports (Node.ofMarkup imports g m).1.neededAll
  | .text _ _ => allNamed_neededAll (.inr rfl) (by rintro _ ⟨⟩)
  | .expression _ _ => allNamed_neededAll (.inr rfl) (by rintro _ ⟨⟩)
  | .element place tag attributes held => by
    refine allNamed_neededAll (.inl ?_) ?_
    · rw [type_ofMarkup_element, component_ofMarkup_element]
    · rcases ofMarkup_element imports g place tag attributes held with ⟨_, t, _, hn⟩ | hn
      · rw [hn]
        rintro _ ⟨⟩
      · rw [hn]
        exact allNamed_allOfMarkup imports g.next.2 held

theorem allNamed_allOfMarkup (imports : List Import) (g : IdSource) :
    (ms : List Markup) → AllNamed imports (Node.neededIn (Node.allOfMarkup imports g ms).1)
  | [] => (by rintro _ ⟨⟩)
  | m :: ms => by
    rw [allOfMarkup_cons, Node.neededIn]
    intro x hx
    rcases List.mem_append.1 hx with hx | hx
    · exact allNamed_ofMarkup imports g m x hx
    · exact allNamed_allOfMarkup imports _ ms x hx

end

/-- It makes no difference whether repeated entries are dropped first or last. -/
theorem filter_foldl_addNew {α : Type} [DecidableEq α] (P : α → Bool) (xs : List α) :
    ∀ ys : List α, (xs.foldl addNew ys).filter P = (xs.filter P).foldl addNew (ys.filter P) := by
  induction xs with
  | nil => exact fun _ => rfl
  | cons x xs ih =>
    intro ys
    have hfirst : (addNew ys x).filter P =
        if P x then addNew (ys.filter P) x else ys.filter P := by
      by_cases hmem : x ∈ ys
      · rw [addNew, if_pos hmem]
        split
        · rename_i hx
          rw [addNew, if_pos (List.mem_filter.2 ⟨hmem, hx⟩)]
        · rfl
      · have hnot : x ∉ ys.filter P := fun h => hmem (List.mem_filter.1 h).1
        rw [addNew, if_neg hmem, List.filter_append, addNew, if_neg hnot]
        cases hx : P x <;> simp [hx]
    rw [List.foldl_cons, ih, hfirst]
    split
    · rename_i hx
      rw [List.filter_cons_of_pos hx, List.foldl_cons]
    · rename_i hx
      rw [List.filter_cons_of_neg hx]

/-- Each missing need comes once, in the order of the nodes. -/
theorem missing_eq (t : Tree) (imports : List Import) :
    t.missing imports = (t.root.neededAll.filter fun n =>
      (Import.resolve? imports n.localName).isNone).foldl addNew [] :=
  filter_foldl_addNew _ _ []

theorem AllNamed.filter {imports : List Import} {ns : List Needed} (h : AllNamed imports ns) :
    (ns.filter fun n => (Import.resolve? imports n.localName).isNone) = [] := by
  rw [List.filter_eq_nil_iff]
  intro x hx
  simp [Option.isSome_iff_ne_none.1 (h x hx)]

theorem missing_of_allNamed {t : Tree} {imports : List Import}
    (h : AllNamed imports t.root.neededAll) : t.missing imports = [] := by
  rw [missing_eq, h.filter]
  rfl

theorem allNamed_ofParts (source : List Char) (imports : List Import) (ms : List Markup)
    (ids : IdSource) : AllNamed imports (Page.ofParts source imports ms ids).tree.root.neededAll :=
  allNamed_neededAll (.inr rfl) (allNamed_allOfMarkup imports ids ms)

theorem missing_ofParts (source : List Char) (imports : List Import) (ms : List Markup)
    (ids : IdSource) : (Page.ofParts source imports ms ids).tree.missing imports = [] :=
  missing_of_allNamed (allNamed_ofParts source imports ms ids)

/-! ## Pages written back -/

theorem Page.read_eq_ok {source key : String} {p : Page} (h : Page.read source key = .ok p) :
    ∃ imports c ms, (ofText source.toList).prelude = .ok (imports, c) ∧
      c.elements true = .ok ms ∧ p = Page.ofParts source.toList imports ms (.ofKey key) := by
  obtain ⟨⟨imports, c⟩, hprelude, h⟩ := bind_eq_ok.1 h
  obtain ⟨ms, helements, h⟩ := bind_eq_ok.1 h
  cases h
  exact ⟨imports, c, ms, hprelude, helements, rfl⟩

theorem Page.exists_of_any {source : String} {ns : Page → List Node} {P : Node → Bool}
    (h : (Page.read source).toOption.any (fun p => (ns p).any P) = true) :
    ∃ p n, Page.read source = .ok p ∧ n ∈ ns p ∧ P n = true := by
  cases hp : Page.read source with
  | error e =>
    rw [hp] at h
    cases h
  | ok p =>
    rw [hp] at h
    obtain ⟨n, hn, hP⟩ := List.any_eq_true.1 h
    exact ⟨p, n, rfl, hn, hP⟩

theorem allNamed_of_read {source key : String} {p : Page} (h : Page.read source key = .ok p) :
    AllNamed p.imports p.tree.root.neededAll := by
  obtain ⟨imports, _, ms, _, _, rfl⟩ := Page.read_eq_ok h
  exact allNamed_ofParts source.toList imports ms (.ofKey key)

theorem patched_of_read {source key : String} {p : Page} (h : Page.read source key = .ok p) :
    p.tree.patched source.toList = source.toList := by
  obtain ⟨imports, c, ms, hprelude, helements, rfl⟩ := Page.read_eq_ok h
  exact patched_ofParts hprelude helements (.ofKey key)

theorem syncImports_of_read {source key : String} {p : Page} (h : Page.read source key = .ok p) :
    p.tree.syncImports source.toList = source.toList := by
  obtain ⟨imports, c, ms, hprelude, _, rfl⟩ := Page.read_eq_ok h
  simp [Tree.syncImports, hprelude, missing_ofParts]

theorem regenerate_eq_of_read {source key : String} {p : Page}
    (h : Page.read source key = .ok p) : p.tree.regenerate source = source := by
  rw [Tree.regenerate, patched_of_read h, syncImports_of_read h, String.ofList_toList]

/-- A page that was read is written back as it was, and no import is added to it. -/
theorem regenerate_of_read {source key : String} {p : Page} (h : Page.read source key = .ok p) :
    p.tree.regenerate source = source ∧
      p.tree.syncImports (p.tree.patched source.toList) = p.tree.patched source.toList := by
  refine ⟨regenerate_eq_of_read h, ?_⟩
  rw [patched_of_read h, syncImports_of_read h]

/-- A page with an import, a component, a text and an expression. -/
def buttonPage : String :=
  "import \x7b Button \x7d from 'ui';\n<div className=\"a\">\n  hi \x7bname\x7d\n  <Button />\n</div>\n"

theorem regenerate_buttonPage :
    ∃ p, Page.read buttonPage "k" = .ok p ∧ p.tree.regenerate buttonPage = buttonPage := by
  have hok : (Page.read buttonPage "k").isOk = true := by decide +kernel
  cases h : Page.read buttonPage "k" with
  | error e =>
    rw [h] at hok
    cases hok
  | ok p => exact ⟨p, rfl, (regenerate_of_read h).1⟩

end PageEditor
