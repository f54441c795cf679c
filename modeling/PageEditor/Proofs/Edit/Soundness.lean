import PageEditor.Edit.Session
import PageEditor.Proofs.Markup.Unchanged
import PageEditor.Proofs.Node.Outline
import PageEditor.Proofs.Tree.Edits

/-!
# Sound sessions

What holds of a session whatever is done with it: its tree and all trees to which one can go back or
forth are well-formed, and only a node of the present tree is selected. Each operation keeps this, so
it holds after every run.
-/
set_option autoImplicit false

namespace PageEditor

/-! ## Operations -/

/-- What can be done with a session that changes its tree, its history or its selection. -/
inductive Operation
  | dispatch (c : Command)
  | commit (es : List PropertyEdit)
  | click (id : String)
  | undo
  | redo
  | reload (source : String)

namespace Session

/-- The session behind an operation. -/
def perform (s : Session) : Operation → Session
  | .dispatch c => (s.dispatch c).2
  | .commit es => (s.commit es).2
  | .click id => (s.click id).2
  | .undo => s.undo.2
  | .redo => s.redo.2
  | .reload source => s.reload source

/-- The session behind some operations, the first one first. -/
def run (s : Session) : List Operation → Session
  | [] => s
  | op :: ops => (s.perform op).run ops

theorem run_append (s : Session) (ops more : List Operation) :
    s.run (ops ++ more) = (s.run ops).run more := by
  induction ops generalizing s with
  | nil => rfl
  | cons op ops ih => exact ih (s.perform op)

/-! ## The invariant -/

structure Sound (s : Session) : Prop where
  tree : ∀ t, s.mode = .page t → t.WellFormed
  past : ∀ x ∈ s.history.past, x.tree.WellFormed
  future : ∀ x ∈ s.history.future, x.tree.WellFormed
  noBatch : s.history.batch = none
  selected : ∀ t, s.mode = .page t → ∀ id, s.selection.id = some id → id ∈ t.allIds
  unselected : ∀ e, s.mode = .verbatim e → s.selection.id = none

theorem wellFormed_ofText {source : String} {t : Tree} (h : Mode.ofText source = .page t) :
    t.WellFormed := by
  unfold Mode.ofText at h
  split at h
  · rename_i p hp
    obtain ⟨imports, _, ms, _, _, rfl⟩ := Page.read_eq_ok hp
    cases h
    exact Page.wellFormed_ofParts _ _ _ _
  · cases h

theorem sound_load (source : String) (defaults : Defaults) (undoLevels : Nat) :
    (load source defaults undoLevels).Sound where
  tree _ := wellFormed_ofText
  past := by rintro _ ⟨⟩
  future := by rintro _ ⟨⟩
  noBatch := rfl
  selected := by rintro _ _ _ ⟨⟩
  unselected _ _ := rfl

/-! ## Going on with another tree -/

theorem selected_reconcile {s : Selection} {t : Tree} (h : t.WellFormed) {id : String}
    (hid : (s.reconcile t).id = some id) : id ∈ t.allIds := by
  obtain ⟨_, hcontains⟩ := Option.filter_eq_some_iff.1 hid
  exact h.indexed.contains_iff.1 hcontains

theorem sound_withTree {s : Session} {t : Tree} {history : History} (ht : t.WellFormed)
    (hpast : ∀ x ∈ history.past, x.tree.WellFormed)
    (hfuture : ∀ x ∈ history.future, x.tree.WellFormed) (hbatch : history.batch = none) :
    (s.withTree t history).reconcile.Sound where
  tree u hu := by
    cases hu
    exact ht
  past := hpast
  future := hfuture
  noBatch := hbatch
  selected u hu id hid := by
    cases hu
    exact selected_reconcile ht hid
  unselected _ hu := by cases hu

theorem mem_trim {limit : Nat} {steps : List Snapshot} {x : Snapshot}
    (h : x ∈ History.trim limit steps) : x ∈ steps := by
  unfold History.trim at h
  split at h
  · exact List.dropLast_subset steps h
  · exact h

theorem record_eq_push {h : History} (hbatch : h.batch = none) (t : Tree) (label : String) :
    h.record t label = h.push ⟨t, label⟩ := by
  rw [History.record, hbatch]

theorem Sound.past_record {s : Session} {t : Tree} (h : s.Sound) (hmode : s.mode = .page t)
    (label : String) : ∀ x ∈ (s.history.record t label).past, x.tree.WellFormed := by
  rw [record_eq_push h.noBatch]
  intro x hx
  rcases List.mem_cons.1 (mem_trim hx) with rfl | hx
  · exact h.tree t hmode
  · exact h.past x hx

theorem Sound.future_record {s : Session} (h : s.Sound) (t : Tree) (label : String) :
    (s.history.record t label).future = [] ∧ (s.history.record t label).batch = none := by
  rw [record_eq_push h.noBatch]
  exact ⟨rfl, h.noBatch⟩

/-! ## Each operation -/

/-- A command that is turned down leaves the session as it was. -/
theorem Sound.dispatch_of_error {s : Session} {t t' : Tree} {c : Command} {e : EditError}
    (h : s.Sound) (hmode : s.mode = .page t) (hc : c.apply s.defaults t = (.error e, t')) :
    s.dispatch c = (.ok (.rejected e), s) := by
  have herror : (c.apply s.defaults t).1 = .error e := by rw [hc]
  have hsame := Tree.apply_of_error (h.tree t hmode).indexed herror
  rw [hc] at hsame
  simp only at hsame
  subst hsame
  obtain ⟨source, mode, defaults, selection, history, queue, previews, version⟩ := s
  simp only at hmode hc
  subst hmode
  simp only [dispatch, hc]

theorem dispatch_of_ok {s : Session} {t t' : Tree} {c : Command} {r : EditResult}
    (hmode : s.mode = .page t) (hc : c.apply s.defaults t = (.ok r, t')) :
    s.dispatch c =
      (.ok (.applied r), (s.withTree t' (s.history.record t c.describe)).reconcile) := by
  simp only [dispatch, hmode, hc]

theorem dispatch_of_verbatim {s : Session} {e : ParseError} (hmode : s.mode = .verbatim e)
    (c : Command) : s.dispatch c = (.error ⟨e⟩, s) := by
  simp only [dispatch, hmode]

theorem sound_dispatch {s : Session} (h : s.Sound) (c : Command) : (s.dispatch c).2.Sound := by
  cases hmode : s.mode with
  | verbatim e =>
    rw [dispatch_of_verbatim hmode]
    exact h
  | page t =>
    cases hc : c.apply s.defaults t with
    | mk r t' =>
      cases r with
      | error e =>
        rw [h.dispatch_of_error hmode hc]
        exact h
      | ok r =>
        rw [dispatch_of_ok hmode hc]
        have ht := Tree.wellFormed_apply (h.tree t hmode) s.defaults c
        rw [hc] at ht
        obtain ⟨hfuture, hbatch⟩ := h.future_record t c.describe
        refine sound_withTree ht (h.past_record hmode _) ?_ hbatch
        rw [hfuture]
        rintro _ ⟨⟩

theorem wellFormed_writeEdits (es : List PropertyEdit) : ∀ t : Tree, t.WellFormed →
    (writeEdits t es).2.WellFormed ∧ (writeEdits t es).2.allIds = t.allIds := by
  induction es with
  | nil => exact fun t h => ⟨h, rfl⟩
  | cons e es ih =>
    intro t h
    rw [writeEdits]
    split
    · exact ih t h
    · have hkeeps : Node.KeepsShape fun n : Node =>
          { n with fields := n.fields.set e.value e.key.field } := fun _ => ⟨rfl, rfl⟩
      have hset := Tree.wellFormed_modify h e.key.nodeId hkeeps fun _ => Fields.set_type _ _ _
      obtain ⟨hwell, hids⟩ := ih _ hset
      exact ⟨hwell, hids.trans (hkeeps.modify t.root).2.1⟩

theorem commit_of_page {s : Session} {t : Tree} (hmode : s.mode = .page t)
    (es : List PropertyEdit) :
    s.commit es =
      if (writeEdits t es).1 = 0 then (.ok 0, s)
      else (.ok (writeEdits t es).1,
        s.withTree (writeEdits t es).2 (s.history.record t "Edit properties")) := by
  simp only [commit, hmode]

theorem sound_commit {s : Session} (h : s.Sound) (es : List PropertyEdit) :
    (s.commit es).2.Sound := by
  cases hmode : s.mode with
  | verbatim e =>
    simp only [commit, hmode]
    exact h
  | page t =>
    rw [commit_of_page hmode]
    split
    · exact h
    · obtain ⟨ht, hids⟩ := wellFormed_writeEdits es t (h.tree t hmode)
      obtain ⟨hfuture, hbatch⟩ := h.future_record t "Edit properties"
      refine ⟨?_, h.past_record hmode _, ?_, hbatch, ?_, ?_⟩
      · intro u hu
        cases hu
        exact ht
      · rw [withTree, hfuture]
        rintro _ ⟨⟩
      · intro u hu id hid
        cases hu
        rw [hids]
        exact h.selected t hmode id hid
      · intro e he
        cases he

theorem sound_click {s : Session} (h : s.Sound) (id : String) : (s.click id).2.Sound := by
  cases hmode : s.mode with
  | verbatim e =>
    simp only [click, hmode]
    exact h
  | page t =>
    simp only [click, hmode]
    refine ⟨?_, h.past, h.future, h.noBatch, ?_, ?_⟩
    · intro u hu
      cases hu
      exact h.tree t hmode
    · intro u hu x hx
      cases hu
      simp only [Selection.select] at hx
      split at hx
      · rename_i hcontains
        cases hx
        exact (h.tree t hmode).indexed.contains_iff.1 hcontains
      · cases hx
    · intro e he
      cases he

theorem undo_of_page {s : Session} {t : Tree} (hmode : s.mode = .page t) :
    s.undo = match s.history.past with
      | [] => (.ok false, s)
      | x :: past => (.ok true, (s.withTree x.tree
          { s.history with past, future := ⟨t, x.label⟩ :: s.history.future }).reconcile) := by
  simp only [undo, hmode, History.undo?]
  cases s.history.past <;> rfl

theorem redo_of_page {s : Session} {t : Tree} (hmode : s.mode = .page t) :
    s.redo = match s.history.future with
      | [] => (.ok false, s)
      | x :: future => (.ok true, (s.withTree x.tree
          { s.history with past := ⟨t, x.label⟩ :: s.history.past, future }).reconcile) := by
  simp only [redo, hmode, History.redo?]
  cases s.history.future <;> rfl

theorem sound_undo {s : Session} (h : s.Sound) : s.undo.2.Sound := by
  cases hmode : s.mode with
  | verbatim e =>
    simp only [undo, hmode]
    exact h
  | page t =>
    rw [undo_of_page hmode]
    cases hpast : s.history.past with
    | nil => exact h
    | cons x past =>
      have hall := h.past
      rw [hpast] at hall
      refine sound_withTree (hall x List.mem_cons_self)
        (fun y hy => hall y (List.mem_cons_of_mem x hy)) ?_ h.noBatch
      intro y hy
      rcases List.mem_cons.1 hy with rfl | hy
      · exact h.tree t hmode
      · exact h.future y hy

theorem sound_redo {s : Session} (h : s.Sound) : s.redo.2.Sound := by
  cases hmode : s.mode with
  | verbatim e =>
    simp only [redo, hmode]
    exact h
  | page t =>
    rw [redo_of_page hmode]
    cases hfuture : s.history.future with
    | nil => exact h
    | cons x future =>
      have hall := h.future
      rw [hfuture] at hall
      refine sound_withTree (hall x List.mem_cons_self) ?_
        (fun y hy => hall y (List.mem_cons_of_mem x hy)) h.noBatch
      intro y hy
      rcases List.mem_cons.1 hy with rfl | hy
      · exact h.tree t hmode
      · exact h.past y hy

theorem perform_of_verbatim {s : Session} {e : ParseError} (hmode : s.mode = .verbatim e)
    {op : Operation} (hop : ∀ source, op ≠ .reload source) : s.perform op = s := by
  cases op with
  | dispatch c => rw [perform, dispatch_of_verbatim hmode]
  | commit es => simp only [perform, commit, hmode]
  | click id => simp only [perform, click, hmode]
  | undo => simp only [perform, undo, hmode]
  | redo => simp only [perform, redo, hmode]
  | reload source => exact absurd rfl (hop source)

theorem sound_reload (s : Session) (source : String) : (s.reload source).Sound := by
  refine ⟨fun t => wellFormed_ofText, (by rintro _ ⟨⟩), (by rintro _ ⟨⟩), rfl, ?_, ?_⟩
  · intro t ht id hid
    have hmode : Mode.ofText source = .page t := ht
    simp only [reload, reconcile, hmode] at hid
    exact selected_reconcile (wellFormed_ofText hmode) hid
  · intro e he
    have hmode : Mode.ofText source = .verbatim e := he
    simp only [reload, reconcile, hmode]

/-! ## Runs -/

theorem sound_perform {s : Session} (h : s.Sound) (op : Operation) : (s.perform op).Sound := by
  cases op with
  | dispatch c => exact sound_dispatch h c
  | commit es => exact sound_commit h es
  | click id => exact sound_click h id
  | undo => exact sound_undo h
  | redo => exact sound_redo h
  | reload source => exact sound_reload s source

theorem Sound.run {s : Session} (h : s.Sound) (ops : List Operation) : (s.run ops).Sound := by
  induction ops generalizing s with
  | nil => exact h
  | cons op ops ih => exact ih (sound_perform h op)

/-- Whatever text is loaded and whatever is done with it, the session is sound. -/
theorem sound_run (source : String) (defaults : Defaults) (undoLevels : Nat)
    (ops : List Operation) : ((load source defaults undoLevels).run ops).Sound :=
  (sound_load source defaults undoLevels).run ops

end Session

end PageEditor
