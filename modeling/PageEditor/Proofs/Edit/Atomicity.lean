import PageEditor.Proofs.Edit.Saving

/-!
# Requests that fail

A command that is turned down gives back the tree as it was, its index of parents and its next ids
included. In a session that one can get to, every request that is not carried out leaves everything as
it was: the tree, the text, both sides of the history, the selection and the version. A text that is
no page turns down every edit and is saved as it is.
-/
set_option autoImplicit false

namespace PageEditor.Session

/-! ## Sessions that one can get to -/

/-- A text is loaded, and then anything is done with it, in any order: edits, clicks and undoing,
commands that come as texts, rendering, compiling, and new settings. -/
inductive Reachable : Session → Prop
  | load (source : String) (defaults : Defaults) (undoLevels : Nat) :
      Reachable (load source defaults undoLevels)
  | perform {s : Session} (h : Reachable s) (op : Operation) : Reachable (s.perform op)
  | dispatchText {s : Session} (h : Reachable s) (text : String) : Reachable (s.dispatchText text).2
  | clearSelection {s : Session} (h : Reachable s) : Reachable s.clearSelection
  | replay {s : Session} (h : Reachable s) (id : String) : Reachable (s.replay id).2
  | render {s : Session} (h : Reachable s) (r : Resolver) : Reachable (s.render r).2
  | runIdle {s : Session} (h : Reachable s) (r : Resolver) (budget : Budget) :
      Reachable (s.runIdle r budget).2.1
  | withDefaults {s : Session} (h : Reachable s) (defaults : Defaults) :
      Reachable { s with defaults }
  | withUndoLevels {s : Session} (h : Reachable s) (limit : Nat) :
      Reachable { s with history := { limit } }
  | withVersion {s : Session} (h : Reachable s) (version : Nat) : Reachable { s with version }

variable {s : Session}

theorem Reachable.run {s : Session} (h : s.Reachable) (ops : List Operation) :
    (s.run ops).Reachable := by
  induction ops generalizing s with
  | nil => exact h
  | cons op ops ih => exact ih (h.perform op)

theorem Sound.of_eq {s' : Session} (h : s.Sound) (hmode : s'.mode = s.mode)
    (hhistory : s'.history = s.history) (hselection : s'.selection = s.selection) : s'.Sound := by
  obtain ⟨htree, hpast, hfuture, hbatch, hselected, hunselected⟩ := h
  rw [← hmode] at htree hselected hunselected
  rw [← hhistory] at hpast hfuture hbatch
  rw [← hselection] at hselected hunselected
  exact ⟨htree, hpast, hfuture, hbatch, hselected, hunselected⟩

theorem dispatchText_of_none {text : String} (htext : Command.ofText? text = none) :
    s.dispatchText text = (.error .notACommand, s) := by
  rw [dispatchText, htext]

theorem dispatchText_of_some {text : String} {c : Command} (htext : Command.ofText? text = some c) :
    s.dispatchText text = ((s.dispatch c).1.mapError .disabled, (s.dispatch c).2) := by
  rw [dispatchText, htext]

theorem Reachable.sound (h : s.Reachable) : s.Sound := by
  induction h with
  | load source defaults undoLevels => exact sound_load source defaults undoLevels
  | perform _ op ih => exact sound_perform ih op
  | dispatchText _ text ih =>
    cases htext : Command.ofText? text with
    | none =>
      rw [dispatchText_of_none htext]
      exact ih
    | some c =>
      rw [dispatchText_of_some htext]
      exact sound_dispatch ih c
  | clearSelection _ ih =>
    exact ⟨ih.tree, ih.past, ih.future, ih.noBatch, (by rintro _ _ _ ⟨⟩), fun _ _ => rfl⟩
  | replay _ id ih =>
    unfold Session.replay
    split
    · exact ih
    · exact ih.of_eq rfl rfl rfl
  | @render s _ r ih =>
    unfold Session.render
    split <;> exact ih.of_eq rfl rfl rfl
  | runIdle _ r budget ih =>
    unfold Session.runIdle
    split <;> exact ih.of_eq rfl rfl rfl
  | withDefaults _ defaults ih => exact ih.of_eq rfl rfl rfl
  | withUndoLevels _ limit ih =>
    exact ⟨ih.tree, (by rintro _ ⟨⟩), (by rintro _ ⟨⟩), rfl, ih.selected, ih.unselected⟩
  | withVersion _ version ih => exact ih.of_eq rfl rfl rfl

/-! ## What fails changes nothing -/

/-- What is not carried out leaves the whole session as it was. -/
structure Atomic (s : Session) : Prop where
  dispatch : ∀ c, (∀ r, (s.dispatch c).1 ≠ .ok (.applied r)) → (s.dispatch c).2 = s
  dispatchText : ∀ text, (∀ r, (s.dispatchText text).1 ≠ .ok (.applied r)) →
    (s.dispatchText text).2 = s
  commit : ∀ es, (∀ n, (s.commit es).1 ≠ .ok (n + 1)) → (s.commit es).2 = s
  undo : s.undo.1 ≠ .ok true → s.undo.2 = s
  redo : s.redo.1 ≠ .ok true → s.redo.2 = s

/-- Every edit is turned down for the same reason, and the text is saved as it is. -/
structure ReadOnly (s : Session) (e : ParseError) : Prop where
  dispatch : ∀ c, s.dispatch c = (.error ⟨e⟩, s)
  commit : ∀ es, s.commit es = (.error ⟨e⟩, s)
  undo : s.undo = (.error ⟨e⟩, s)
  redo : s.redo = (.error ⟨e⟩, s)
  save : s.save = s.source

theorem readOnly_of_verbatim {e : ParseError} (hmode : s.mode = .verbatim e) : s.ReadOnly e where
  dispatch := dispatch_of_verbatim hmode
  commit es := by rw [commit, hmode]
  undo := by rw [undo, hmode]
  redo := by rw [redo, hmode]
  save := by rw [save, hmode]

theorem Sound.dispatch_eq_of_not_applied (h : s.Sound) {c : Command}
    (hc : ∀ r, (s.dispatch c).1 ≠ .ok (.applied r)) : (s.dispatch c).2 = s := by
  have hno : ¬s.TakesEffect (.dispatch c) := by
    rintro ⟨r, hr⟩
    exact hc r hr
  have hedit : (Operation.dispatch c).IsEdit := trivial
  exact perform_of_not_takesEffect h hedit hno

theorem Sound.dispatchText_eq_of_not_applied (h : s.Sound) {text : String}
    (htext : ∀ r, (s.dispatchText text).1 ≠ .ok (.applied r)) : (s.dispatchText text).2 = s := by
  cases hc : Command.ofText? text with
  | none => rw [dispatchText_of_none hc]
  | some c =>
    rw [dispatchText_of_some hc] at htext ⊢
    refine h.dispatch_eq_of_not_applied fun r hr => htext r ?_
    rw [hr]
    rfl

theorem Sound.commit_eq_of_none (h : s.Sound) {es : List PropertyEdit}
    (hes : ∀ n, (s.commit es).1 ≠ .ok (n + 1)) : (s.commit es).2 = s := by
  have hno : ¬s.TakesEffect (.commit es) := by
    rintro ⟨n, hn⟩
    exact hes n hn
  have hedit : (Operation.commit es).IsEdit := trivial
  exact perform_of_not_takesEffect h hedit hno

theorem undo_eq_of_ne (h : s.undo.1 ≠ .ok true) : s.undo.2 = s := by
  cases hmode : s.mode with
  | verbatim e => rw [(readOnly_of_verbatim hmode).undo]
  | page t =>
    rw [undo_of_page hmode] at h ⊢
    cases hpast : s.history.past with
    | nil => rfl
    | cons x past =>
      rw [hpast] at h
      exact absurd rfl h

theorem redo_eq_of_ne (h : s.redo.1 ≠ .ok true) : s.redo.2 = s := by
  cases hmode : s.mode with
  | verbatim e => rw [(readOnly_of_verbatim hmode).redo]
  | page t =>
    rw [redo_of_page hmode] at h ⊢
    cases hfuture : s.history.future with
    | nil => rfl
    | cons x future =>
      rw [hfuture] at h
      exact absurd rfl h

theorem Sound.atomic (h : s.Sound) : s.Atomic where
  dispatch _ := h.dispatch_eq_of_not_applied
  dispatchText _ := h.dispatchText_eq_of_not_applied
  commit _ := h.commit_eq_of_none
  undo := undo_eq_of_ne
  redo := redo_eq_of_ne

/-- A command that a tree turns down gives the tree back as it was, and a session that one can get to
is as it was after every request that is not carried out, a text that holds no command among them. If
its text is no page, every edit is turned down and the text is saved. -/
theorem atomic_of_reachable :
    (∀ (t : Tree) (d : Defaults) (c : Command) (e : EditError), t.Indexed →
      (c.apply d t).1 = .error e → (c.apply d t).2 = t) ∧
    ∀ s : Session, s.Reachable → s.Atomic ∧
      (∀ text, Command.ofText? text = none → s.dispatchText text = (.error .notACommand, s)) ∧
      ∀ e, s.mode = .verbatim e → s.ReadOnly e := by
  refine ⟨fun t d c e ht he => Tree.apply_of_error ht he, fun s hs => ?_⟩
  exact ⟨hs.sound.atomic, fun text => dispatchText_of_none, fun e => readOnly_of_verbatim⟩

/-- A tree whose root is of no special type. -/
def plainTree : Tree :=
  .around { Node.ofType rootId "main" with children := [.ofType "a" "p"] } (.ofKey "k")

/-- The list page behind an edit that has been taken back and a click. -/
def revisited : Session :=
  (load listPage).run [.dispatch (.delete (pageId 5)), .undo, .click (pageId 2)]

/-- A node that is dropped on one that is missing or lies below it, a text that breaks off, edits for
no node, and nothing that could be undone; and a text that is no page. -/
theorem atomic_revisited :
    ((Command.move "a" "b" .inside).apply .standard plainTree).2 = plainTree ∧
      revisited.selection.id = some (pageId 2) ∧ revisited.redo.1 = .ok true ∧
      (revisited.dispatch (.move (pageId 1) (pageId 2) .inside)).1 = .ok (.rejected .cycle) ∧
      (revisited.dispatch (.move (pageId 1) (pageId 2) .inside)).2 = revisited ∧
      revisited.dispatchText "\x7b\"command\":" = (.error .notACommand, revisited) ∧
      (revisited.commit [⟨⟨"nothing", .text⟩, "x"⟩]).2 = revisited ∧
      revisited.undo.2 = revisited ∧ (load "<p>").save = "<p>" := by
  obtain ⟨htree, hsession⟩ := atomic_of_reachable
  have hreached : revisited.Reachable := (Reachable.load listPage .standard 100).run _
  obtain ⟨hatomic, htext, _⟩ := hsession revisited hreached
  have hcycle : (revisited.dispatch (.move (pageId 1) (pageId 2) .inside)).1 =
      .ok (.rejected .cycle) := by decide +kernel
  have hcommit : (revisited.commit [⟨⟨"nothing", .text⟩, "x"⟩]).1 = .ok 0 := by decide +kernel
  have hundo : revisited.undo.1 = .ok false := by decide +kernel
  have hplain : plainTree.Indexed := ⟨rfl, by decide, rfl⟩
  refine ⟨htree _ .standard _ (.nodeNotFound "b") hplain (by decide +kernel), by decide +kernel,
    by decide +kernel, hcycle, hatomic.dispatch _ ?_, htext _ (by decide +kernel),
    hatomic.commit _ ?_, hatomic.undo ?_, ?_⟩
  · intro r hr
    rw [hcycle] at hr
    cases hr
  · intro n hn
    rw [hcommit] at hn
    cases hn
  · rw [hundo]
    decide
  · have hbroken : (load "<p>").parseError?.isSome = true := by decide +kernel
    cases hmode : (load "<p>").mode with
    | page t => simp [parseError?, hmode] at hbroken
    | verbatim e =>
      exact ((hsession (load "<p>") (.load _ _ _)).2.2 e hmode).save

end PageEditor.Session
