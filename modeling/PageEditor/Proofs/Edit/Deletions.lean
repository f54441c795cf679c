import PageEditor.Proofs.Edit.Saving
import PageEditor.Proofs.Markup.Remaining
import PageEditor.Proofs.Markup.Resaving

/-!
# Saving what deletions leave

What is saved of a loaded page after some deletions is a page again, as long as an element is left at
its top, and it says what is left: the same elements and expressions below each other and in the same
order, with the same fields and components, and the same words between them.
-/
set_option autoImplicit false

namespace PageEditor

/-! ## Pages -/

section Pages

variable {source key : String} {p : Page} {t : Tree}

theorem isLeaf_of_rest (hp : Page.read source key = .ok p) (h : t.IsRestOf p.tree) :
    ∀ n ∈ t.root.children, n.isLeaf = false := by
  obtain ⟨_, _, _, hframe⟩ := Page.exists_frame hp
  intro n hn
  obtain ⟨k, hk, hrest⟩ := h.below n (Node.mem_nodesAll hn)
  obtain ⟨k', hk', hid⟩ := List.mem_map.1 (h.root.childIds.subset (List.mem_map_of_mem hn))
  obtain rfl := hframe.known.unique k' (Node.mem_nodesAll hk') k hk (hid.trans hrest.id)
  rw [hrest.isLeaf]
  exact isLeaf_of_read hp k' hk'

theorem missing_of_rest (hp : Page.read source key = .ok p) (h : t.IsRestOf p.tree) :
    t.missing p.imports = [] := by
  obtain ⟨imports, c, ms, _, _, rfl⟩ := Page.read_eq_ok hp
  exact missing_of_stemsFrom h.stemsFrom rfl

theorem haveParts_of_forall₂ {imports : List Import} {ns : List Node} {ms : List Markup}
    (h : List.Forall₂ (fun n m => m.HasParts imports n.parts) ns ms) :
    HaveParts imports ms (Node.partsAll ns) := by
  induction h with
  | nil => exact haveParts_nil
  | cons hn _ ih => exact hn.cons ih

theorem Page.parts_regenerate (hp : Page.read source key = .ok p) (hremembers : p.tree.Remembers t)
    (ht : t.WellFormed) (h : t.IsRestOf p.tree) (hne : t.root.children ≠ []) (key' : String) :
    ∃ q, Page.read (t.regenerate source) key' = .ok q ∧
      Node.partsAll q.tree.root.children = Node.partsAll t.root.children := by
  obtain ⟨_, _, _, hframe⟩ := Page.exists_frame hp
  have hall : ∀ n ∈ t.root.children,
      IsElementWith (·.HasParts p.imports n.parts) (n.patched source.toList 0) := by
    intro n hn
    have hsaid := Node.saidBy_patched hframe.known (isMade_of_read hp) 0 n fun m hm =>
      h.below m (Node.mem_nodesAll_iff.2 ⟨n, hn, hm⟩)
    exact hsaid.2 (isLeaf_of_rest hp h n hn)
  have hnone := Tree.importBlock_of_missing_nil (missing_of_rest hp h)
  obtain ⟨q, ms, hq, hchildren, hms, hnames⟩ := Page.read_of_elements
    (R := fun n m => m.HasParts p.imports n.parts) hp hremembers ht hall
    (hnone ▸ isImportBlock_nil) hne key'
  have hnil : Import.ofBlock [] = [] := by decide +kernel
  rw [hnone, hnil, List.append_nil] at hnames
  refine ⟨q, hq, ?_⟩
  rw [hchildren]
  exact haveParts_of_forall₂ hms q.imports _ hnames

end Pages

namespace Session

/-- Deletes nodes one after the other. -/
def deletions (ids : List String) : List Operation := ids.map fun id => .dispatch (.delete id)

/-- After any deletions, of nodes that are there or not, a loaded page is a page, and what is saved of
it can be read as long as an element is left at its top. Then the elements and expressions that are
read are those that are left, in the same order below each other, each with the same fields and the
same component, and between them, in front of them and behind them stand the same words. -/
theorem parts_save_deletions {source : String} {p : Page} (hp : Page.read source = .ok p)
    (defaults : Defaults) (undoLevels : Nat) (ids : List String) :
    ∃ t, ((load source defaults undoLevels).run (deletions ids)).mode = .page t ∧
      (t.root.children ≠ [] →
        ∃ q, Page.read ((load source defaults undoLevels).run (deletions ids)).save = .ok q ∧
          Node.partsAll q.tree.root.children = Node.partsAll t.root.children) := by
  have hsound := sound_load source defaults undoLevels
  have hdeletions : deletions ids = (ids.map .delete).map .dispatch := by
    rw [deletions, List.map_map]
    rfl
  have hdelete : ∀ c ∈ ids.map Command.delete, ∀ (d : Defaults) (t : Tree), t.WellFormed →
      t.IsRestOf p.tree ∧ p.tree.Remembers t →
      (c.apply d t).2.IsRestOf p.tree ∧ p.tree.Remembers (c.apply d t).2 := by
    rintro c hc d t - ⟨hrest, hremembers⟩
    obtain ⟨id, _, rfl⟩ := List.mem_map.1 hc
    exact ⟨hrest.delete id, hremembers.delete id⟩
  obtain ⟨t, hmode, hrest, hremembers⟩ := page_run_dispatch hdelete hsound
    (mode_load hp defaults undoLevels) ⟨p.tree.isRestOf_refl, (fits_of_read hp).2⟩
  rw [← hdeletions] at hmode
  refine ⟨t, hmode, fun hne => ?_⟩
  have hsource : ((load source defaults undoLevels).run (deletions ids)).source = source := by
    refine source_run ?_ _
    intro op hop other
    obtain ⟨id, _, rfl⟩ := List.mem_map.1 hop
    rintro ⟨⟩
  rw [save, hmode, hsource]
  exact Page.parts_regenerate hp hremembers ((hsound.run _).tree t hmode) hrest hne Tree.defaultKey

/-- Texts that become neighbours, one that is left alone, an element that gets empty, and an expression
that stays in its old place. -/
def notesPage : String :=
  "import \x7b Box \x7d from 'kit';\n<Box>a <i>b</i> c <b/> d</Box>\n// between\n<ul><li>x</li></ul>\n" ++
    "<p style=\x7b\x7b left: 1 \x7d\x7d>one \x7bn + 1\x7d <u/> two</p>\n<hr/>\n\nexport default Page;\n"

/-- The ids of the italics, of a node that is not there, of the item and of the rule. -/
def notesDeleted : List String := [pageId 3, "nothing", pageId 9, pageId 16]

theorem parts_save_notesPage :
    (Page.read notesPage).isOk = true ∧
      ∃ t, ((load notesPage).run (deletions notesDeleted)).mode = .page t ∧ t.root.children ≠ [] ∧
        ∃ q, Page.read ((load notesPage).run (deletions notesDeleted)).save = .ok q ∧
          Node.partsAll q.tree.root.children = Node.partsAll t.root.children := by
  have hok : (Page.read notesPage).isOk = true := by decide +kernel
  have hleft : ((load notesPage).run (deletions notesDeleted)).tree?.all
      (fun t => !t.root.children.isEmpty) = true := by decide +kernel
  obtain ⟨p, hp⟩ := isOk_iff.1 hok
  obtain ⟨t, hmode, hread⟩ := parts_save_deletions hp .standard 100 notesDeleted
  rw [tree?, hmode] at hleft
  have hne : t.root.children ≠ [] := by simpa using hleft
  exact ⟨hok, t, hmode, hne, hread hne⟩

end Session

end PageEditor
