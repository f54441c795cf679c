import PageEditor.Proofs.Edit.Atomicity
import PageEditor.Proofs.Edit.Provenance
import PageEditor.Proofs.Markup.Reread

/-!
# Saved pages that are loaded again

In a session that one can get to, the tree remembers its places in the text that was loaded last. So
if what has been edited can be read at all, what is saved can be loaded again, and every element is
there at its old place. A committed edit is an edit of the fields of one such element.
-/
set_option autoImplicit false

namespace PageEditor.Session

/-! ## Sessions that remember their text -/

/-- The text of the session is a page and all trees of the session remember their places in it, or
the text is no page. -/
inductive Grounded (s : Session) : Prop
  | page {p : Page} (hp : Page.read s.source = .ok p) (hall : s.AllTrees p.tree.Remembers)
  | verbatim {e : ParseError} (hmode : s.mode = .verbatim e)

variable {s : Session}

theorem grounded_of_fresh (hmode : s.mode = .ofText s.source) (hpast : s.history.past = [])
    (hfuture : s.history.future = []) : s.Grounded := by
  rw [Mode.ofText] at hmode
  cases hp : Page.read s.source with
  | error e =>
    rw [hp] at hmode
    exact .verbatim hmode
  | ok p =>
    rw [hp] at hmode
    refine .page hp ⟨fun t ht => ?_, ?_, ?_⟩
    · cases hmode.symm.trans ht
      exact (fits_of_read hp).2
    · rw [hpast]
      rintro _ ⟨⟩
    · rw [hfuture]
      rintro _ ⟨⟩

theorem Grounded.perform (h : s.Grounded) (hs : s.Sound) (op : Operation) :
    (s.perform op).Grounded := by
  by_cases hop : ∃ source, op = .reload source
  · obtain ⟨source, rfl⟩ := hop
    exact grounded_of_fresh rfl rfl rfl
  · have hstays : ∀ source, op ≠ .reload source := fun source heq => hop ⟨source, heq⟩
    cases h with
    | page hp hall =>
      refine .page (source_perform s hstays ▸ hp) ?_
      refine hall.perform hs hstays (fun c _ t hmode => ?_) fun es h => remembers_writeEdits es h
      exact (hall.present t hmode).apply (hs.tree t hmode).indexed s.defaults c
    | verbatim hmode =>
      rw [perform_of_verbatim hmode hstays]
      exact .verbatim hmode

theorem Grounded.of_eq {s' : Session} (h : s.Grounded) (hsource : s'.source = s.source)
    (hmode : s'.mode = s.mode) (hpast : s'.history.past ⊆ s.history.past)
    (hfuture : s'.history.future ⊆ s.history.future) : s'.Grounded := by
  cases h with
  | page hp hall =>
    rw [← hsource] at hp
    exact .page hp ⟨fun t ht => hall.present t (hmode ▸ ht), fun x hx => hall.past x (hpast hx),
      fun x hx => hall.future x (hfuture hx)⟩
  | verbatim hno => exact .verbatim (hmode.trans hno)

theorem Reachable.grounded (h : s.Reachable) : s.Grounded := by
  induction h with
  | load source defaults undoLevels => exact grounded_of_fresh rfl rfl rfl
  | perform h op ih => exact ih.perform h.sound op
  | @dispatchText s h text ih =>
    cases htext : Command.ofText? text with
    | none =>
      rw [dispatchText_of_none htext]
      exact ih
    | some c =>
      rw [dispatchText_of_some htext]
      exact ih.perform h.sound (.dispatch c)
  | clearSelection _ ih => exact ih.of_eq rfl rfl (List.Subset.refl _) (List.Subset.refl _)
  | replay _ id ih =>
    unfold Session.replay
    split
    · exact ih
    · exact ih.of_eq rfl rfl (List.Subset.refl _) (List.Subset.refl _)
  | render _ r ih =>
    unfold Session.render
    split <;> exact ih.of_eq rfl rfl (List.Subset.refl _) (List.Subset.refl _)
  | runIdle _ r budget ih =>
    unfold Session.runIdle
    split <;> exact ih.of_eq rfl rfl (List.Subset.refl _) (List.Subset.refl _)
  | withDefaults _ defaults ih => exact ih.of_eq rfl rfl (List.Subset.refl _) (List.Subset.refl _)
  | withUndoLevels _ limit ih =>
    exact ih.of_eq rfl rfl (List.nil_subset _) (List.nil_subset _)
  | withVersion _ version ih => exact ih.of_eq rfl rfl (List.Subset.refl _) (List.Subset.refl _)

/-- What is saved of a page can be loaded again, and every element is there at its place. -/
theorem Reachable.reread (h : s.Reachable) {t : Tree} (hmode : s.mode = .page t)
    (hlegible : t.Legible s.source) {k : Nat} {ks : List Nat} {n : Node}
    (hn : t.root.elementAt? (k :: ks) = some n) :
    ∃ q m, Page.read s.save = .ok q ∧ q.tree.root.elementAt? (k :: ks) = some m ∧
      n.ReadsAs q.imports m := by
  cases h.grounded with
  | verbatim hno => cases hmode.symm.trans hno
  | page hp hall =>
    have hne : t.root.children ≠ [] := Node.children_ne_nil_of_elementAt? hn
    obtain ⟨q, hq, hrestores, _⟩ := Page.reread hp (hall.present t hmode) (h.sound.tree t hmode)
      hlegible hne Tree.defaultKey
    obtain ⟨m, hm, hreads⟩ := hrestores.elementAt? hn
    refine ⟨q, m, ?_, hm, hreads⟩
    rw [save, hmode]
    exact hq

/-! ## One committed edit -/

theorem commit_elementAt (hs : s.Sound) {t : Tree} (hmode : s.mode = .page t) {ks : List Nat}
    {n : Node} (hn : t.root.elementAt? ks = some n) (field : EditField) (value : String) :
    ∃ t', (s.commit [⟨⟨n.id, field⟩, value⟩]).2.mode = .page t' ∧
      t'.root.elementAt? ks = some { n with fields := n.fields.set value field } := by
  refine ⟨_, (mode_commit hmode _).1, ?_⟩
  have hwell := hs.tree t hmode
  have hfound : t.find? n.id = some n :=
    Node.find?_of_mem hwell.nodup (Node.mem_nodes_of_elementAt? hn)
  simp only [writeEdits, hfound]
  exact Node.elementAt?_modify (f := fun n => { n with fields := n.fields.set value field })
    hwell.nodup (fun c => Fields.set_type c.fields value field) hn

/-- The element is there with the edit, and if the page can be read again it is read where it stood. -/
theorem Reachable.commit_reread (hs : s.Reachable) {t : Tree} (hmode : s.mode = .page t) {k : Nat}
    {ks : List Nat} {n : Node} (hn : t.root.elementAt? (k :: ks) = some n) (field : EditField)
    (value : String) :
    ∃ t' n', (s.commit [⟨⟨n.id, field⟩, value⟩]).2.mode = .page t' ∧
      t'.root.elementAt? (k :: ks) = some n' ∧ n' = { n with fields := n.fields.set value field } ∧
      (t'.Legible s.source → ∃ q m, Page.read (s.commit [⟨⟨n.id, field⟩, value⟩]).2.save = .ok q ∧
        q.tree.root.elementAt? (k :: ks) = some m ∧ n'.ReadsAs q.imports m) := by
  obtain ⟨t', hmode', hn'⟩ := commit_elementAt hs.sound hmode hn field value
  refine ⟨t', _, hmode', hn', rfl, fun hlegible => ?_⟩
  rw [← (mode_commit hmode [⟨⟨n.id, field⟩, value⟩]).2] at hlegible
  have hs' : (s.commit [⟨⟨n.id, field⟩, value⟩]).2.Reachable := hs.perform (.commit _)
  exact hs'.reread hmode' hlegible hn'

/-- If edits are committed in a page that has just been loaded, and new text only where there is a
place for it, the page can be read again as it is just if the nodes that have changed can be printed. -/
theorem legible_commit_iff {source : String} {p : Page} (hp : Page.read source = .ok p)
    (defaults : Defaults) (undoLevels : Nat) {es : List PropertyEdit}
    (hes : ∀ e ∈ es, e.key.field = .text →
      ∀ n ∈ p.tree.root.nodes, n.id = e.key.nodeId → n.takesText = true) {t : Tree}
    (hmode : ((load source defaults undoLevels).commit es).2.mode = .page t) :
    t.Legible source ↔
      ∀ n ∈ Node.nodesAll t.root.children, n.isChanged = true → n.Printable := by
  have hcommit := (mode_commit (mode_load hp defaults undoLevels) es).1
  obtain rfl := Mode.page.inj (hcommit.symm.trans hmode)
  exact legible_iff_of_outline hp (outline_writeEdits hes (t := p.tree) rfl)

end PageEditor.Session
