import PageEditor.Proofs.Edit.Committing
import PageEditor.Proofs.Markup.Fitting

/-!
# Where the nodes of an edited page come from

Whatever is done with a loaded page, a node that has an origin is one that was read. It has the origin
that was read for its id and is the child of the node that it was read in, and the nodes with origins
among the children of a node stand in the order of the text. That is all that the patcher relies on:
it never cuts the loaded text where it cannot be cut.
-/
set_option autoImplicit false

namespace PageEditor

/-! ## All trees of a session -/

namespace Session

/-- The present tree and all those to which one can go back or forth have the property. -/
structure AllTrees (P : Tree → Prop) (s : Session) : Prop where
  present : ∀ t, s.mode = .page t → P t
  past : ∀ x ∈ s.history.past, P x.tree
  future : ∀ x ∈ s.history.future, P x.tree

variable {P : Tree → Prop} {s : Session} {t : Tree}

theorem allTrees_withTree {history : History} (ht : P t) (hpast : ∀ x ∈ history.past, P x.tree)
    (hfuture : ∀ x ∈ history.future, P x.tree) : (s.withTree t history).AllTrees P := by
  refine ⟨fun u hu => ?_, hpast, hfuture⟩
  cases hu
  exact ht

theorem AllTrees.reconcile (h : s.AllTrees P) : s.reconcile.AllTrees P :=
  ⟨h.present, h.past, h.future⟩

theorem AllTrees.record (h : s.AllTrees P) (hs : s.Sound) (hmode : s.mode = .page t) {t' : Tree}
    (ht' : P t') (label : String) :
    (s.withTree t' (s.history.record t label)).AllTrees P := by
  refine allTrees_withTree ht' ?_ ?_
  · rw [record_eq_push hs.noBatch]
    intro x hx
    rcases List.mem_cons.1 (mem_trim hx) with rfl | hx
    · exact h.present t hmode
    · exact h.past x hx
  · rw [(hs.future_record t label).1]
    rintro _ ⟨⟩

/-- What a dispatched command and committed edits keep holds of all trees after an operation on the
page. -/
theorem AllTrees.perform (h : s.AllTrees P) (hs : s.Sound) {op : Operation}
    (hop : ∀ source, op ≠ .reload source)
    (happly : ∀ c, op = .dispatch c → ∀ t, s.mode = .page t → P (c.apply s.defaults t).2)
    (hwrite : ∀ {t : Tree} (es : List PropertyEdit), P t → P (writeEdits t es).2) :
    (s.perform op).AllTrees P := by
  cases hmode : s.mode with
  | verbatim e =>
    rw [perform_of_verbatim hmode hop]
    exact h
  | page t =>
    have ht := h.present t hmode
    cases op with
    | reload source => exact absurd rfl (hop source)
    | dispatch c =>
      rw [Session.perform]
      cases hc : c.apply s.defaults t with
      | mk r t' =>
        cases r with
        | error e =>
          rw [hs.dispatch_of_error hmode hc]
          exact h
        | ok r =>
          have ht' := happly c rfl t hmode
          rw [hc] at ht'
          rw [dispatch_of_ok hmode hc]
          exact (h.record hs hmode ht' _).reconcile
    | commit es =>
      rw [Session.perform, commit_of_page hmode]
      split
      · exact h
      · exact h.record hs hmode (hwrite es ht) _
    | click id =>
      simp only [Session.perform, click, hmode]
      exact ⟨fun u hu => h.present u (hmode.trans hu), h.past, h.future⟩
    | undo =>
      rw [Session.perform, undo_of_page hmode]
      cases hpast : s.history.past with
      | nil => exact h
      | cons x past =>
        obtain ⟨hx, hpast⟩ := List.forall_mem_cons.1 (hpast ▸ h.past)
        have hfuture : ∀ y ∈ (⟨t, x.label⟩ : Snapshot) :: s.history.future, P y.tree :=
          List.forall_mem_cons.2 ⟨ht, h.future⟩
        exact (allTrees_withTree hx hpast hfuture).reconcile
    | redo =>
      rw [Session.perform, redo_of_page hmode]
      cases hfuture : s.history.future with
      | nil => exact h
      | cons x future =>
        obtain ⟨hx, hfuture⟩ := List.forall_mem_cons.1 (hfuture ▸ h.future)
        have hpast : ∀ y ∈ (⟨t, x.label⟩ : Snapshot) :: s.history.past, P y.tree :=
          List.forall_mem_cons.2 ⟨ht, h.past⟩
        exact (allTrees_withTree hx hpast hfuture).reconcile

theorem AllTrees.run
    (happly : ∀ {t : Tree} (d : Defaults) (c : Command), t.WellFormed → P t → P (c.apply d t).2)
    (hwrite : ∀ {t : Tree} (es : List PropertyEdit), P t → P (writeEdits t es).2)
    {ops : List Operation} (hops : ∀ op ∈ ops, ∀ source, op ≠ .reload source) :
    ∀ {s : Session}, s.AllTrees P → s.Sound → (s.run ops).AllTrees P := by
  induction ops with
  | nil => exact fun h _ => h
  | cons op ops ih =>
    obtain ⟨hop, hops⟩ := List.forall_mem_cons.1 hops
    intro s h hs
    refine ih hops (h.perform hs hop (fun c _ t hmode => ?_) hwrite) (sound_perform hs op)
    exact happly s.defaults c (hs.tree t hmode) (h.present t hmode)

end Session

/-! ## Provenance -/

namespace Tree

/-- What the origins in a tree tell, when `t₀` was read from the text: an origin is the one that the
node of the same id has in `t₀`; its node is a child of the node that it was a child of, which has an
origin too; the origins of siblings stand in the order of the text; the text still has every origin at
its place; and children are out of order only if one of them has no origin. -/
structure Provenance (source : List Char) (t₀ t : Tree) : Prop where
  origin : ∀ n ∈ t.root.nodes, ∀ o, n.origin = some o →
    ∃ k, t₀.find? n.id = some k ∧ k.origin = some o
  parent : ∀ n ∈ t.root.nodes, ∀ c ∈ n.children, c.origin.isSome →
    n.origin.isSome ∧ t₀.parentId? c.id = some n.id
  ordered : ∀ n ∈ t.root.nodes, (n.children.filterMap (·.origin)).Pairwise fun a b =>
    a.place.span.start ≤ a.place.span.stop ∧ a.place.span.stop ≤ b.place.span.start
  accepted : ∀ n ∈ t.root.nodes, n.originIn? source = n.origin
  inOrder : ∀ n ∈ t.root.nodes,
    Node.inOrder source 0 n.children = n.children.all (·.origin.isSome)

variable {source : List Char} {t₀ t : Tree}

theorem Remembers.origin (h : t₀.Remembers t) (h₀ : t₀.WellFormed) {n : Node}
    (hn : n ∈ t.root.nodes) {o : Origin} (ho : n.origin = some o) :
    ∃ k, t₀.find? n.id = some k ∧ k.origin = some o := by
  obtain ⟨k, hk, hmark, _⟩ := (h.nodes n hn).kept (by rw [ho]; exact Option.some_ne_none o)
  refine ⟨k, ?_, (Node.origin_of_mark hmark).symm.trans ho⟩
  have hid : n.id = k.id := congrArg Prod.fst hmark
  rw [hid]
  exact Node.find?_of_mem h₀.nodup hk

theorem Remembers.parent (h : t₀.Remembers t) (h₀ : t₀.WellFormed) {n c : Node}
    (hn : n ∈ t.root.nodes) (hc : c ∈ n.children) (hsome : c.origin.isSome) :
    n.origin.isSome ∧ t₀.parentId? c.id = some n.id := by
  have hplaced : c ∈ n.placed := List.mem_filter.2 ⟨hc, hsome⟩
  have hne : n.origin ≠ none := by
    intro hnone
    rw [(h.nodes n hn).lost hnone] at hplaced
    cases hplaced
  obtain ⟨k, hk, hmark, hsublist⟩ := (h.nodes n hn).kept hne
  obtain ⟨c₀, hc₀, hcmark⟩ := List.mem_map.1 (hsublist.subset (List.mem_map_of_mem hplaced))
  refine ⟨Option.isSome_iff_ne_none.2 hne, h₀.indexed.parentId?_eq_some_iff.2 ?_⟩
  refine Node.mem_edges_iff.2 ⟨k, hk, ?_, c₀, (List.mem_filter.1 hc₀).1, ?_⟩
  · exact (congrArg Prod.fst hmark).symm
  · exact congrArg Prod.fst hcmark

theorem Remembers.provenance (h : t₀.Remembers t) (h₀ : t₀.WellFormed) (hfits : t.Fits source) :
    t₀.Provenance source t := by
  have hchildren : ∀ n ∈ t.root.nodes, ∀ c ∈ n.children, c.Fits source := fun n hn c hc =>
    hfits.nodes c (Node.nodes_subset t.root n hn c (Node.mem_nodes_of_child hc))
  refine ⟨fun n hn o ho => h.origin h₀ hn ho, fun n hn c hc hsome => h.parent h₀ hn hc hsome,
    fun n hn => ?_, fun n hn => (hfits.nodes n hn).originIn?,
    fun n hn => (hfits.nodes n hn).inOrder (hchildren n hn)⟩
  obtain ⟨region, htiles⟩ := (hfits.nodes n hn).tiles
  have hplaced : n.placed.filterMap (·.origin) = n.children.filterMap (·.origin) := by
    rw [Node.placed, List.filterMap_filter]
    refine congrArg (List.filterMap · n.children) (funext fun c => ?_)
    cases c.origin <;> rfl
  rw [← hplaced]
  exact htiles.ordered

end Tree

namespace Session

theorem remembers_writeEdits (es : List PropertyEdit) {t₀ : Tree} : ∀ {t : Tree}, t₀.Remembers t →
    t₀.Remembers (writeEdits t es).2 := by
  induction es with
  | nil => exact fun h => h
  | cons e es ih =>
    intro t h
    rw [writeEdits]
    split
    · exact ih h
    · have hset : Node.Forgetful t₀.root.nodes fun n =>
          { n with fields := n.fields.set e.value e.key.field } :=
        Node.forgetful_of_keeps (fun _ => rfl) fun _ => rfl
      exact ih (h.modify hset e.key.nodeId)

/-- Whatever commands, committed edits, undoing and redoing do to a loaded page, the origins in its
tree tell where its nodes come from, and it is saved by cuts of the loaded text that all succeed. -/
theorem provenance_run {source : String} {p : Page} (hp : Page.read source = .ok p)
    (defaults : Defaults) (undoLevels : Nat) (ops : List Operation)
    (hops : ∀ op ∈ ops, ∀ text, op ≠ .reload text) :
    ∃ t text, ((load source defaults undoLevels).run ops).mode = .page t ∧
      p.tree.Provenance source.toList t ∧
      t.patchedBy (Text.slice source.toList) source.toList = some text ∧
      ((load source defaults undoLevels).run ops).save = String.ofList (t.syncImports text) := by
  have hload := mode_load hp defaults undoLevels
  have hsound := sound_load source defaults undoLevels
  obtain ⟨hfits, hself⟩ := fits_of_read hp
  have hwell := hsound.tree p.tree hload
  have hstart : (load source defaults undoLevels).AllTrees p.tree.Remembers := by
    refine ⟨fun t ht => ?_, (by rintro _ ⟨⟩), (by rintro _ ⟨⟩)⟩
    cases hload.symm.trans ht
    exact hself
  have hall := hstart.run (fun d c ht h => h.apply ht.indexed d c)
    (fun es h => remembers_writeEdits es h) hops hsound
  obtain ⟨t, hmode⟩ := page_run hops hload
  have hremembers := hall.present t hmode
  have hfits' := hremembers.fits hfits
  refine ⟨t, _, hmode, hremembers.provenance hwell hfits', hfits'.cuttable.patchedBy_eq, ?_⟩
  rw [save, hmode, source_run hops]
  rfl

/-- The list page behind each kind of edit: a new item, a node of another type, a move, a copy, new
text, and two steps that are taken back, one of them for good. -/
def reworked : List Operation :=
  [.dispatch (.add (pageId 1) "li" (some 0) (some "zero") none),
    .dispatch (.update (.ofType (pageId 5) "section")), .dispatch (.move (pageId 5) (pageId 1) .inside),
    .dispatch (.duplicate (pageId 2)), .undo, .redo, .commit listRetouches,
    .dispatch (.delete (pageId 2)), .undo]

theorem provenance_reworked :
    ∃ p t text, Page.read listPage = .ok p ∧ ((load listPage).run reworked).mode = .page t ∧
      p.tree.Provenance listPage.toList t ∧
      t.patchedBy (Text.slice listPage.toList) listPage.toList = some text := by
  have hok : (Page.read listPage).isOk = true := by decide +kernel
  have hstays : ∀ op ∈ reworked, ∀ text, op ≠ .reload text := by simp [reworked]
  obtain ⟨p, hp⟩ := isOk_iff.1 hok
  obtain ⟨t, text, hmode, hprovenance, hcuts, _⟩ := provenance_run hp .standard 100 reworked hstays
  exact ⟨p, t, text, hp, hmode, hprovenance, hcuts⟩

end Session

end PageEditor
