import PageEditor.Proofs.Edit.Soundness

/-!
# Timelines

The trees of a session's past, its present tree and the trees of its future make a timeline. Undoing
and redoing move along it and change none of its trees; an edit that takes effect cuts it off behind
the present tree and puts the new tree there. So undoing every edit leads back to the tree that was
loaded, and redoing them all leads to the last one again.
-/
set_option autoImplicit false

namespace PageEditor

/-- Whether the operation is a command or a commit of released edits. -/
def Operation.IsEdit : Operation → Prop
  | .dispatch _ => True
  | .commit _ => True
  | _ => False

theorem Operation.IsEdit.ne_reload {op : Operation} (h : op.IsEdit) (source : String) :
    op ≠ .reload source := by
  rintro rfl
  exact h

namespace Session

/-! ## Edits that take effect -/

/-- A command that is applied takes effect, and so does a commit that writes something. -/
def TakesEffect (s : Session) : Operation → Prop
  | .dispatch c => ∃ r, (s.dispatch c).1 = .ok (.applied r)
  | .commit es => ∃ n, (s.commit es).1 = .ok (n + 1)
  | _ => False

instance (s : Session) : (op : Operation) → Decidable (s.TakesEffect op)
  | .dispatch c =>
    match h : (s.dispatch c).1 with
    | .ok (.applied r) => .isTrue ⟨r, h⟩
    | .ok (.rejected _) => .isFalse fun ⟨_, hr⟩ => nomatch h.symm.trans hr
    | .error _ => .isFalse fun ⟨_, hr⟩ => nomatch h.symm.trans hr
  | .commit es =>
    match h : (s.commit es).1 with
    | .ok (n + 1) => .isTrue ⟨n, h⟩
    | .ok 0 => .isFalse fun ⟨_, hn⟩ => nomatch h.symm.trans hn
    | .error _ => .isFalse fun ⟨_, hn⟩ => nomatch h.symm.trans hn
  | .click _ | .undo | .redo | .reload _ => .isFalse id

/-- `n` of the operations take effect, each in the session that it meets. -/
inductive Effects : Session → List Operation → Nat → Prop
  | nil (s : Session) : Effects s [] 0
  | effect {s : Session} {op : Operation} {ops : List Operation} {n : Nat}
      (hop : s.TakesEffect op) (hmore : Effects (s.perform op) ops n) : Effects s (op :: ops) (n + 1)
  | none {s : Session} {op : Operation} {ops : List Operation} {n : Nat}
      (hop : ¬s.TakesEffect op) (hmore : Effects (s.perform op) ops n) : Effects s (op :: ops) n

/-! ## Timelines -/

/-- The session is a page and its present tree is number `k` of the trees `l`. -/
def StandsAt (s : Session) (l : List Tree) (k : Nat) : Prop :=
  ∃ t, s.mode = .page t ∧ s.history.past.length = k ∧
    l = (s.history.past.map (·.tree)).reverse ++ t :: s.history.future.map (·.tree)

variable {s : Session} {l : List Tree} {k n : Nat}

theorem StandsAt.mode_eq (h : s.StandsAt l k) : ∃ t, l[k]? = some t ∧ s.mode = .page t := by
  obtain ⟨t, hmode, rfl, rfl⟩ := h
  refine ⟨t, ?_, hmode⟩
  rw [List.getElem?_append_right (by simp)]
  simp

theorem standsAt_of_mode {t : Tree} (hmode : s.mode = .page t) (hpast : s.history.past = [])
    (hfuture : s.history.future = []) : s.StandsAt [t] 0 :=
  ⟨t, hmode, by simp [hpast], by simp [hpast, hfuture]⟩

/-! ## Moving along a timeline -/

theorem StandsAt.undo_zero (h : s.StandsAt l 0) : s.undo = (.ok false, s) := by
  obtain ⟨t, hmode, hpast, _⟩ := h
  rw [undo_of_page hmode, List.length_eq_zero_iff.1 hpast]

theorem StandsAt.undo_succ (h : s.StandsAt l (k + 1)) :
    s.undo.1 = .ok true ∧ s.undo.2.StandsAt l k := by
  obtain ⟨t, hmode, hlength, rfl⟩ := h
  rw [undo_of_page hmode]
  cases hpast : s.history.past with
  | nil => simp [hpast] at hlength
  | cons x past =>
    rw [hpast] at hlength
    refine ⟨rfl, x.tree, rfl, Nat.succ.inj hlength, ?_⟩
    simp [reconcile, withTree]

theorem StandsAt.redo_succ (h : s.StandsAt l k) (hk : k + 1 < l.length) :
    s.redo.1 = .ok true ∧ s.redo.2.StandsAt l (k + 1) := by
  obtain ⟨t, hmode, rfl, rfl⟩ := h
  rw [redo_of_page hmode]
  cases hfuture : s.history.future with
  | nil => simp [hfuture] at hk
  | cons x future =>
    refine ⟨rfl, x.tree, rfl, rfl, ?_⟩
    simp [reconcile, withTree]

theorem StandsAt.undo_many (n : Nat) : ∀ {s : Session} {k : Nat}, s.StandsAt l (k + n) →
    (s.run (List.replicate n .undo)).StandsAt l k ∧
      ∀ j < n, (s.run (List.replicate j .undo)).undo.1 = .ok true := by
  induction n with
  | zero => exact fun h => ⟨h, fun j hj => absurd hj (Nat.not_lt_zero j)⟩
  | succ n ih =>
    intro s k h
    obtain ⟨hok, hundone⟩ := h.undo_succ
    obtain ⟨hstands, hall⟩ := ih hundone
    refine ⟨hstands, ?_⟩
    intro j hj
    cases j with
    | zero => exact hok
    | succ j => exact hall j (by omega)

theorem StandsAt.redo_many (n : Nat) : ∀ {s : Session} {k : Nat}, s.StandsAt l k →
    k + n < l.length →
    (s.run (List.replicate n .redo)).StandsAt l (k + n) ∧
      ∀ j < n, (s.run (List.replicate j .redo)).redo.1 = .ok true := by
  induction n with
  | zero => exact fun h _ => ⟨h, fun j hj => absurd hj (Nat.not_lt_zero j)⟩
  | succ n ih =>
    intro s k h hk
    obtain ⟨hok, hredone⟩ := h.redo_succ (by omega)
    obtain ⟨hstands, hall⟩ := ih hredone (by omega)
    refine ⟨?_, ?_⟩
    · have hsum : k + (n + 1) = k + 1 + n := by omega
      rw [hsum]
      exact hstands
    · intro j hj
      cases j with
      | zero => exact hok
      | succ j => exact hall j (by omega)

/-! ## Edits on a timeline -/

/-- A recorded step: the timeline ends behind the present tree and goes on with the new one. -/
theorem standsAt_record {t t' : Tree} {label : String} {history : History}
    (hs : s.Sound) (hmode : s.mode = .page t) (h : s.StandsAt l k)
    (hlimit : s.history.limit = 0 ∨ k + 1 ≤ s.history.limit)
    {s' : Session} (hmode' : s'.mode = .page t') (hhistory : s'.history = history)
    (hrecord : history = s.history.record t label) :
    s'.StandsAt (l.take (k + 1) ++ [t']) (k + 1) := by
  obtain ⟨u, hu, hlength, rfl⟩ := h
  cases hmode.symm.trans hu
  have hpast : history.past = ⟨t, label⟩ :: s.history.past := by
    rw [hrecord, record_eq_push hs.noBatch, History.push, History.trim]
    refine if_neg ?_
    rw [List.length_cons]
    omega
  have hfuture : history.future = [] := by
    rw [hrecord]
    exact (hs.future_record t label).1
  refine ⟨t', hmode', ?_, ?_⟩
  · rw [hhistory, hpast, List.length_cons, hlength]
  · have hfull : (s.history.past.map (·.tree)).reverse.take (k + 1) =
        (s.history.past.map (·.tree)).reverse :=
      List.take_of_length_le (by simp [hlength])
    rw [hhistory, hpast, hfuture, List.take_append, hfull]
    simp [hlength]

theorem perform_of_not_takesEffect (hs : s.Sound) {op : Operation} (hop : op.IsEdit)
    (h : ¬s.TakesEffect op) : s.perform op = s := by
  cases hmode : s.mode with
  | verbatim e => exact perform_of_verbatim hmode hop.ne_reload
  | page t =>
    cases op with
    | dispatch c =>
      rw [perform]
      cases hc : c.apply s.defaults t with
      | mk r t' =>
        cases r with
        | error e => rw [hs.dispatch_of_error hmode hc]
        | ok r =>
          refine absurd ⟨r, ?_⟩ h
          rw [dispatch_of_ok hmode hc]
    | commit es =>
      rw [perform, commit_of_page hmode]
      by_cases hn : (writeEdits t es).1 = 0
      · rw [if_pos hn]
      · obtain ⟨n, hn'⟩ := Nat.exists_eq_succ_of_ne_zero hn
        refine absurd ⟨n, ?_⟩ h
        rw [commit_of_page hmode, if_neg hn, hn']
    | click => exact hop.elim
    | undo => exact hop.elim
    | redo => exact hop.elim
    | reload => exact hop.elim

theorem perform_of_takesEffect (hs : s.Sound) {op : Operation} (h : s.TakesEffect op) :
    ∃ t t' label, s.mode = .page t ∧ (s.perform op).mode = .page t' ∧
      (s.perform op).history = s.history.record t label := by
  cases op with
  | dispatch c =>
    obtain ⟨r, hr⟩ := h
    rw [perform]
    cases hmode : s.mode with
    | verbatim e =>
      rw [dispatch_of_verbatim hmode] at hr
      cases hr
    | page t =>
      cases hc : c.apply s.defaults t with
      | mk r' t' =>
        cases r' with
        | error e =>
          rw [hs.dispatch_of_error hmode hc] at hr
          cases hr
        | ok r' =>
          rw [dispatch_of_ok hmode hc]
          exact ⟨t, t', _, rfl, rfl, rfl⟩
  | commit es =>
    obtain ⟨n, hn⟩ := h
    rw [perform]
    cases hmode : s.mode with
    | verbatim e =>
      simp only [commit, hmode] at hn
      cases hn
    | page t =>
      rw [commit_of_page hmode] at hn ⊢
      by_cases h0 : (writeEdits t es).1 = 0
      · rw [if_pos h0] at hn
        cases hn
      · rw [if_neg h0]
        exact ⟨t, _, _, rfl, rfl, rfl⟩
  | click => exact h.elim
  | undo => exact h.elim
  | redo => exact h.elim
  | reload => exact h.elim

theorem limit_record (h : History) (t : Tree) (label : String) :
    (h.record t label).limit = h.limit := by
  rw [History.record]
  split <;> rfl

/-- After a run of edits the session stands at the end of a timeline that begins as before. -/
theorem standsAt_run {ops : List Operation} (heffects : Effects s ops n) (hs : s.Sound)
    (hops : ∀ op ∈ ops, op.IsEdit) : ∀ {l : List Tree} {k : Nat}, s.StandsAt l k →
    l.length = k + 1 → (s.history.limit = 0 ∨ k + n ≤ s.history.limit) →
    ∃ l', (s.run ops).StandsAt l' (k + n) ∧ l'.length = k + n + 1 ∧ l'.take (k + 1) = l := by
  induction heffects with
  | nil s =>
    intro l k h hl _
    exact ⟨l, h, hl, by rw [← hl, List.take_length]⟩
  | @effect s op ops n hop _ ih =>
    intro l k h hl hlimit
    obtain ⟨t, t', label, hmode, hmode', hhistory⟩ := perform_of_takesEffect hs hop
    have hstep := standsAt_record hs hmode h (by omega) hmode' hhistory rfl
    rw [← hl, List.take_length] at hstep
    have hlimit' : (s.perform op).history.limit = s.history.limit := by
      rw [hhistory, limit_record]
    rw [hl] at hstep
    obtain ⟨l', hstands, hl', htake⟩ := ih (sound_perform hs op)
      (fun op hop => hops op (List.mem_cons_of_mem _ hop)) hstep (by simp [hl])
      (by rw [hlimit']; omega)
    have hsum : k + 1 + n = k + (n + 1) := by omega
    rw [hsum] at hstands hl'
    refine ⟨l', hstands, hl', ?_⟩
    have htwice := congrArg (List.take (k + 1)) htake
    rw [List.take_take, Nat.min_eq_left (by omega), List.take_append_of_le_length (by omega),
      ← hl, List.take_length] at htwice
    rw [← hl]
    exact htwice
  | @none s op ops n hop _ ih =>
    have hsame := perform_of_not_takesEffect hs (hops op List.mem_cons_self) hop
    rw [run]
    rw [hsame] at ih ⊢
    intro l k h hl hlimit
    exact ih hs (fun op hop => hops op (List.mem_cons_of_mem _ hop)) h hl hlimit

/-! ## What an operation leaves alone -/

theorem source_perform (s : Session) {op : Operation} (hop : ∀ source, op ≠ .reload source) :
    (s.perform op).source = s.source := by
  cases op with
  | dispatch c =>
    simp only [perform, dispatch]
    split
    · rfl
    · split <;> rfl
  | commit es =>
    simp only [perform, commit]
    split
    · rfl
    · split <;> rfl
  | click id =>
    simp only [perform, click]
    split <;> rfl
  | undo =>
    simp only [perform, undo]
    split
    · rfl
    · split <;> rfl
  | redo =>
    simp only [perform, redo]
    split
    · rfl
    · split <;> rfl
  | reload source => exact absurd rfl (hop source)

theorem source_run {ops : List Operation} (hops : ∀ op ∈ ops, ∀ source, op ≠ .reload source) :
    ∀ s : Session, (s.run ops).source = s.source := by
  induction ops with
  | nil => exact fun _ => rfl
  | cons op ops ih =>
    intro s
    have hrest := ih (fun op hop => hops op (List.mem_cons_of_mem _ hop)) (s.perform op)
    exact hrest.trans (source_perform s (hops op List.mem_cons_self))

theorem save_eq_of_mode {s s' : Session} (hmode : s.mode = s'.mode)
    (hsource : s.source = s'.source) : s.save = s'.save := by
  rw [save, save, hmode, hsource]

/-- Only undoing makes something that can be redone. -/
theorem future_perform (hs : s.Sound) (hfuture : s.history.future = []) {op : Operation}
    (hop : op ≠ .undo) : (s.perform op).history.future = [] := by
  by_cases h : s.TakesEffect op
  · obtain ⟨t, t', label, _, _, hhistory⟩ := perform_of_takesEffect hs h
    rw [hhistory]
    exact (hs.future_record t label).1
  · cases op with
    | dispatch c =>
      have hedit : (Operation.dispatch c).IsEdit := trivial
      rw [perform_of_not_takesEffect hs hedit h, hfuture]
    | commit es =>
      have hedit : (Operation.commit es).IsEdit := trivial
      rw [perform_of_not_takesEffect hs hedit h, hfuture]
    | click id =>
      simp only [perform, click]
      split <;> exact hfuture
    | undo => exact absurd rfl hop
    | redo =>
      cases hmode : s.mode with
      | verbatim e =>
        simp only [perform, redo, hmode]
        exact hfuture
      | page t =>
        rw [perform, redo_of_page hmode, hfuture]
        exact hfuture
    | reload source => rfl

theorem future_run {ops : List Operation} (hops : .undo ∉ ops) : ∀ {s : Session}, s.Sound →
    s.history.future = [] → (s.run ops).history.future = [] := by
  induction ops with
  | nil => exact fun _ hfuture => hfuture
  | cons op ops ih =>
    intro s hs hfuture
    have hop : op ≠ .undo := fun h => hops (h ▸ List.mem_cons_self)
    exact ih (fun h => hops (List.mem_cons_of_mem _ h)) (sound_perform hs op)
      (future_perform hs hfuture hop)

theorem page_perform {t : Tree} (hmode : s.mode = .page t) {op : Operation}
    (hop : ∀ source, op ≠ .reload source) : ∃ t', (s.perform op).mode = .page t' := by
  cases op with
  | dispatch c =>
    simp only [perform, dispatch, hmode]
    split <;> exact ⟨_, rfl⟩
  | commit es =>
    rw [perform, commit_of_page hmode]
    split
    · exact ⟨t, hmode⟩
    · exact ⟨_, rfl⟩
  | click id =>
    simp only [perform, click, hmode]
    exact ⟨t, rfl⟩
  | undo =>
    rw [perform, undo_of_page hmode]
    split
    · exact ⟨t, hmode⟩
    · exact ⟨_, rfl⟩
  | redo =>
    rw [perform, redo_of_page hmode]
    split
    · exact ⟨t, hmode⟩
    · exact ⟨_, rfl⟩
  | reload source => exact absurd rfl (hop source)

theorem page_run {ops : List Operation} (hops : ∀ op ∈ ops, ∀ source, op ≠ .reload source) :
    ∀ {s : Session} {t : Tree}, s.mode = .page t → ∃ t', (s.run ops).mode = .page t' := by
  induction ops with
  | nil => exact fun hmode => ⟨_, hmode⟩
  | cons op ops ih =>
    intro s t hmode
    obtain ⟨t', hmode'⟩ := page_perform hmode (hops op List.mem_cons_self)
    exact ih (fun op hop => hops op (List.mem_cons_of_mem _ hop)) hmode'

theorem redo_of_future {t : Tree} (hmode : s.mode = .page t) (hfuture : s.history.future = []) :
    s.redo = (.ok false, s) := by
  rw [redo_of_page hmode, hfuture]

/-! ## Undoing all and redoing all -/

theorem ne_reload_of_replicate {op : Operation} (hop : ∀ source, op ≠ .reload source) (n : Nat) :
    ∀ x ∈ List.replicate n op, ∀ source, x ≠ .reload source := by
  intro x hx
  rw [List.eq_of_mem_replicate hx]
  exact hop

theorem save_of_loaded {source : String} {t : Tree} (hmode : s.mode = .page t)
    (hsource : s.source = source) (hloaded : Mode.ofText source = .page t) : s.save = source := by
  rw [save, hmode, hsource]
  unfold Mode.ofText at hloaded
  split at hloaded
  · rename_i p hp
    cases hloaded
    exact regenerate_eq_of_read hp
  · cases hloaded

/-- Undoing `n` edits of a loaded page gives the tree and the text that were loaded, and redoing them
gives the edited ones. Once an edit has taken effect there is nothing to redo until something is
undone again. -/
theorem undo_all_redo_all {source : String} {defaults : Defaults} {limit : Nat} {t : Tree}
    (hpage : (load source defaults limit).mode = .page t) :
    (∀ (ops : List Operation) (n : Nat), (∀ op ∈ ops, op.IsEdit) →
      Effects (load source defaults limit) ops n → (limit = 0 ∨ n ≤ limit) →
      let edited := (load source defaults limit).run ops
      let undone := edited.run (List.replicate n .undo)
      let redone := undone.run (List.replicate n .redo)
      (∀ j < n, (edited.run (List.replicate j .undo)).undo.1 = .ok true) ∧
        undone.mode = .page t ∧ undone.save = source ∧ undone.undo = (.ok false, undone) ∧
        (∀ j < n, (undone.run (List.replicate j .redo)).redo.1 = .ok true) ∧
        redone.mode = edited.mode ∧ redone.save = edited.save) ∧
    (∀ (before : List Operation) (op : Operation) (after : List Operation),
      ((load source defaults limit).run before).TakesEffect op → .undo ∉ after →
      let later := (load source defaults limit).run (before ++ op :: after)
      (∀ t', later.mode = .page t' → later.redo = (.ok false, later)) ∧
        ((∀ x ∈ before ++ op :: after, ∀ source, x ≠ .reload source) →
          ∃ t', later.mode = .page t')) := by
  have hsound := sound_load source defaults limit
  refine ⟨?_, ?_⟩
  · intro ops n hops heffects hlimit edited undone redone
    have hload := standsAt_of_mode hpage rfl rfl
    obtain ⟨l, hedited, hlength, htake⟩ :=
      standsAt_run heffects hsound hops hload rfl (by rw [Nat.zero_add]; exact hlimit)
    obtain ⟨hundone, hundos⟩ := StandsAt.undo_many n hedited
    obtain ⟨hredone, hredos⟩ := StandsAt.redo_many n hundone (by omega)
    have hsource : edited.source = source :=
      source_run (fun op hop => (hops op hop).ne_reload) _
    have hsource' : undone.source = edited.source :=
      source_run (ne_reload_of_replicate (by rintro _ ⟨⟩) n) edited
    have hsource'' : redone.source = undone.source :=
      source_run (ne_reload_of_replicate (by rintro _ ⟨⟩) n) undone
    -- The first tree of the timeline is the loaded one.
    have hfirst : undone.mode = .page t := by
      obtain ⟨u, hu, hmode⟩ := hundone.mode_eq
      have hhead : l[0]? = some t := by
        rw [← List.getElem?_take_of_lt (show 0 < 1 from Nat.one_pos), htake]
        rfl
      rw [hhead] at hu
      cases hu
      exact hmode
    have hlast : redone.mode = edited.mode := by
      obtain ⟨u, hu, hmode⟩ := hedited.mode_eq
      obtain ⟨u', hu', hmode'⟩ := hredone.mode_eq
      rw [hu] at hu'
      cases hu'
      rw [hmode, hmode']
    refine ⟨hundos, hfirst, ?_, hundone.undo_zero, hredos, hlast, ?_⟩
    · exact save_of_loaded hfirst (hsource'.trans hsource) hpage
    · exact save_eq_of_mode hlast (hsource''.trans hsource')
  · intro before op after hop hafter later
    refine ⟨?_, fun hops => page_run hops hpage⟩
    intro t' hmode
    have hbefore := hsound.run before
    obtain ⟨u, u', label, _, _, hhistory⟩ := perform_of_takesEffect hbefore hop
    refine redo_of_future hmode ?_
    have hnone : (((load source defaults limit).run before).perform op).history.future = [] := by
      rw [hhistory]
      exact (hbefore.future_record u label).1
    have hlater := future_run hafter (sound_perform hbefore op) hnone
    rw [← run, ← run_append] at hlater
    exact hlater

def shortPage : Session := load "<p>hi</p>\n" .standard 1

def shortEdit : Operation :=
  .dispatch (.duplicate (IdSource.id (IdSource.seedOf Tree.defaultKey) 1))

/-- One command that is turned down and one that takes effect. -/
def shortEdits : List Operation := [.dispatch (.delete "nothing"), shortEdit]

theorem undo_all_redo_all_shortPage :
    shortPage.isPage = true ∧ Effects shortPage shortEdits 1 ∧
      ((shortPage.run shortEdits).run [.undo]).save = "<p>hi</p>\n" ∧
      (((shortPage.run shortEdits).run [.undo]).run [.redo]).save =
        (shortPage.run shortEdits).save ∧
      (shortPage.run ([shortEdit, .undo] ++ shortEdit :: [.redo])).redo.1 = .ok false := by
  have hpage : shortPage.isPage = true := by decide +kernel
  have heffects : Effects shortPage shortEdits 1 :=
    .none (by decide +kernel) (.effect (by decide +kernel) (.nil _))
  have hedits : ∀ op ∈ shortEdits, op.IsEdit := by simp [shortEdits, shortEdit, Operation.IsEdit]
  have hagain : (shortPage.run [shortEdit, .undo]).TakesEffect shortEdit := by decide +kernel
  cases hmode : shortPage.mode with
  | verbatim e => simp [isPage, tree?, hmode] at hpage
  | page t =>
    have hall := undo_all_redo_all hmode
    obtain ⟨_, _, hsave, _, _, _, hsave'⟩ :=
      hall.1 shortEdits 1 hedits heffects (.inr (Nat.le_refl 1))
    obtain ⟨hredo, hstays⟩ := hall.2 [shortEdit, .undo] shortEdit [.redo] hagain (by simp)
    obtain ⟨t', hpage'⟩ := hstays (by simp [shortEdit])
    have hnothing := hredo t' hpage'
    exact ⟨hpage, heffects, hsave, hsave', congrArg (·.1) hnothing⟩

end Session

end PageEditor
