import PageEditor.Edit.History

/-!
# Steps

What a history keeps of the steps that were made. A step is one edit, or a batch with an edit in it.
The steps that were made and the ones that were undone lie on one line, each beginning with the tree
that the one before it ends with, and the history holds the trees on the other sides of them. A step
makes room for new ones at the old end when there have been more steps than the limit allows; it is
the most steps there ever were that counts, for undoing and redoing only move along the line.
-/
set_option autoImplicit false

namespace PageEditor.History

/-! ## Runs -/

/-- An edit that is recorded, or something that is done to the history. -/
inductive Action
  | edit (after : Tree) (label : String)
  | beginBatch
  | labelBatch (label : String)
  | endBatch
  | undo
  | redo
  | clear

/-- The present tree and its history. -/
structure Present where
  tree : Tree
  history : History

namespace Present

def undo? (p : Present) : Option Present := (p.history.undo? p.tree).map fun (t, h) => ⟨t, h⟩

def redo? (p : Present) : Option Present := (p.history.redo? p.tree).map fun (t, h) => ⟨t, h⟩

/-- An edit is recorded with the tree before it, and a batch begins with the present tree. -/
def act (p : Present) : Action → Present
  | .edit after label => ⟨after, p.history.record p.tree label⟩
  | .beginBatch => { p with history := p.history.beginBatch p.tree }
  | .labelBatch label => { p with history := p.history.labelBatch label }
  | .endBatch => { p with history := p.history.endBatch }
  | .undo => p.undo?.getD p
  | .redo => p.redo?.getD p
  | .clear => { p with history := p.history.clear }

def run (p : Present) : List Action → Present
  | [] => p
  | a :: as => (p.act a).run as

/-- Nothing is undone or redone while a batch is open. -/
def Orderly (p : Present) : List Action → Prop
  | [] => True
  | a :: as => (a = .undo ∨ a = .redo → p.history.batch = none) ∧ (p.act a).Orderly as

end Present

namespace Present

variable {p : Present}

theorem undo?_of_nil (h : p.history.past = []) : p.undo? = none := by
  rw [undo?, History.undo?, h]
  rfl

theorem undo?_of_cons {s : Snapshot} {past : List Snapshot} (h : p.history.past = s :: past) :
    p.undo? = some ⟨s.tree, { p.history with
      past, future := ⟨p.tree, s.label⟩ :: p.history.future }⟩ := by
  rw [undo?, History.undo?, h]
  rfl

theorem redo?_of_nil (h : p.history.future = []) : p.redo? = none := by
  rw [redo?, History.redo?, h]
  rfl

theorem redo?_of_cons {s : Snapshot} {future : List Snapshot} (h : p.history.future = s :: future) :
    p.redo? = some ⟨s.tree, { p.history with
      past := ⟨p.tree, s.label⟩ :: p.history.past, future }⟩ := by
  rw [redo?, History.redo?, h]
  rfl

theorem redo?_of_undo? {p' : Present} (h : p.undo? = some p') : p'.redo? = some p := by
  cases hpast : p.history.past with
  | nil =>
    rw [undo?_of_nil hpast] at h
    cases h
  | cons s past =>
    rw [undo?_of_cons hpast] at h
    cases h
    rw [redo?_of_cons rfl, ← hpast]

theorem undo?_of_redo? {p' : Present} (h : p.redo? = some p') : p'.undo? = some p := by
  cases hfuture : p.history.future with
  | nil =>
    rw [redo?_of_nil hfuture] at h
    cases h
  | cons s future =>
    rw [redo?_of_cons hfuture] at h
    cases h
    rw [undo?_of_cons rfl, ← hfuture]

end Present

/-! ## Steps -/

structure Step where
  before : Tree
  after : Tree
  label : String

/-- The entry by which a step is undone. -/
def Step.back (s : Step) : Snapshot := ⟨s.before, s.label⟩

/-- The entry by which a step is made again. -/
def Step.forth (s : Step) : Snapshot := ⟨s.after, s.label⟩

/-- The label of the first edit of a batch. -/
def firstEdit? : List Action → Option String
  | [] => none
  | .edit _ label :: _ => some label
  | _ :: as => firstEdit? as

/-- The last label that a batch was given. -/
def lastLabel? : List Action → Option String
  | [] => none
  | .labelBatch label :: as => (lastLabel? as).or (some label)
  | _ :: as => lastLabel? as

theorem firstEdit?_append (as bs : List Action) :
    firstEdit? (as ++ bs) = (firstEdit? as).or (firstEdit? bs) := by
  induction as with
  | nil => rfl
  | cons a as ih => cases a <;> simp [firstEdit?, ih]

theorem lastLabel?_append (as bs : List Action) :
    lastLabel? (as ++ bs) = (lastLabel? bs).or (lastLabel? as) := by
  induction as with
  | nil => simp [lastLabel?]
  | cons a as ih => cases a <;> simp [lastLabel?, ih]

/-- The steps of a run: those made and not undone, the latest first, those undone, the next one to
redo first, and how many were made and not undone when there were most of them. An open batch has
the tree before it and what was done in it. -/
structure Course where
  tree : Tree
  made : List Step := []
  undone : List Step := []
  most : Nat := 0
  batch : Option (Tree × List Action) := none

namespace Course

/-- How many of the steps made have never had to make room for others. -/
def kept (limit : Nat) (c : Course) : Nat :=
  if limit = 0 then c.made.length else c.made.length - (c.most - limit)

def step (c : Course) (s : Step) : Course where
  tree := s.after
  made := s :: c.made
  most := max c.most (c.made.length + 1)

/-- Within a batch. -/
def gather (c : Course) (before : Tree) (inner : List Action) : Action → Course
  | .edit after label =>
    { c with tree := after, batch := some (before, inner ++ [.edit after label]) }
  | .labelBatch label => { c with batch := some (before, inner ++ [.labelBatch label]) }
  | .endBatch =>
    match firstEdit? inner with
    | none => { c with batch := none }
    | some first => c.step ⟨before, c.tree, (lastLabel? inner).getD first⟩
  | .clear => { tree := c.tree }
  | .beginBatch | .undo | .redo => c

/-- Outside of batches. -/
def go (limit : Nat) (c : Course) : Action → Course
  | .edit after label => c.step ⟨c.tree, after, label⟩
  | .beginBatch => { c with batch := some (c.tree, []) }
  | .undo =>
    match c.made with
    | [] => c
    | s :: made =>
      if c.kept limit = 0 then c else { c with tree := s.before, made, undone := s :: c.undone }
  | .redo =>
    match c.undone with
    | [] => c
    | s :: undone => { c with tree := s.after, made := s :: c.made, undone }
  | .clear => { tree := c.tree }
  | .labelBatch _ | .endBatch => c

def act (limit : Nat) (c : Course) (a : Action) : Course :=
  match c.batch with
  | none => c.go limit a
  | some (before, inner) => c.gather before inner a

def run (limit : Nat) (c : Course) : List Action → Course
  | [] => c
  | a :: as => (c.act limit a).run limit as

/-- The tree that the steps lead to and from. -/
def joint (c : Course) : Tree := (c.batch.map (·.1)).getD c.tree

end Course

/-! ## The line of steps -/

/-- The steps end with the tree, each one where the later one begins. -/
def LeadTo : Tree → List Step → Prop
  | _, [] => True
  | t, s :: steps => s.after = t ∧ LeadTo s.before steps

/-- The steps begin with the tree, each one where the earlier one ends. -/
def LeadFrom : Tree → List Step → Prop
  | _, [] => True
  | t, s :: steps => s.before = t ∧ LeadFrom s.after steps

/-- The open batch of a history that began with the tree and in which something was done. -/
def batchOf (before : Tree) (inner : List Action) : Batch :=
  ⟨before, firstEdit? inner, lastLabel? inner⟩

/-- The present tree and its history show the steps of the course. -/
structure Shows (limit : Nat) (c : Course) (p : Present) : Prop where
  tree : p.tree = c.tree
  limit_eq : p.history.limit = limit
  past : p.history.past = (c.made.take (c.kept limit)).map Step.back
  future : p.history.future = c.undone.map Step.forth
  batch : p.history.batch = c.batch.map fun (before, inner) => batchOf before inner
  /-- Without an edit the tree is still the one that the batch began with. -/
  idle : ∀ before inner, c.batch = some (before, inner) → firstEdit? inner = none → c.tree = before
  behind : LeadTo c.joint c.made
  ahead : LeadFrom c.joint c.undone
  most : c.made.length + c.undone.length ≤ c.most
  lost : 0 < limit → c.most - limit ≤ c.made.length

variable {limit : Nat} {c : Course} {p : Present} {inner : List Action} {t t' : Tree}

theorem shows_start (limit : Nat) (t : Tree) : Shows limit { tree := t } ⟨t, { limit }⟩ where
  tree := rfl
  limit_eq := rfl
  past := by simp
  future := rfl
  batch := rfl
  idle _ _ h := by cases h
  behind := trivial
  ahead := trivial
  most := Nat.le_refl 0
  lost _ := by simp

namespace Course

theorem joint_of_none (h : c.batch = none) : c.joint = c.tree := by
  rw [joint, h]
  rfl

theorem joint_of_some (h : c.batch = some (t, inner)) : c.joint = t := by
  rw [joint, h]
  rfl

/-! ## Levels -/

theorem kept_le (limit : Nat) (c : Course) : c.kept limit ≤ c.made.length := by
  unfold kept
  split <;> omega

/-- As many steps are kept as there were before, or one more if the limit allows it. -/
theorem kept_step (hmost : c.made.length ≤ c.most)
    (hlost : 0 < limit → c.most - limit ≤ c.made.length) (s : Step) : (c.step s).kept limit =
      if 0 < limit ∧ limit < c.kept limit + 1 then c.kept limit else c.kept limit + 1 := by
  simp only [kept, step, List.length_cons]
  split
  · simp_all
  · have hlost' := hlost (by omega)
    split <;> omega

theorem kept_succ {c' : Course} (hmade : c'.made.length = c.made.length + 1)
    (hmost : c'.most = c.most) (hlost : 0 < limit → c.most - limit ≤ c.made.length) :
    c'.kept limit = c.kept limit + 1 := by
  rw [kept, kept, hmade, hmost]
  split
  · rfl
  · have hlost' := hlost (by omega)
    omega

theorem levels_le (hlimit : 0 < limit) (hmost : c.made.length + c.undone.length ≤ c.most)
    (hlost : c.most - limit ≤ c.made.length) : c.kept limit + c.undone.length ≤ limit := by
  rw [kept, if_neg (by omega)]
  omega

end Course

/-- A new entry drops the oldest one if as many are kept as the limit allows. -/
theorem trim_past (hmost : c.made.length ≤ c.most)
    (hlost : 0 < limit → c.most - limit ≤ c.made.length) (s : Step) :
    trim limit (s.back :: (c.made.take (c.kept limit)).map Step.back) =
      ((s :: c.made).take ((c.step s).kept limit)).map Step.back := by
  have hpast : s.back :: (c.made.take (c.kept limit)).map Step.back =
      ((s :: c.made).take (c.kept limit + 1)).map Step.back := rfl
  have hlength : (((s :: c.made).take (c.kept limit + 1)).map Step.back).length =
      c.kept limit + 1 := by
    simp [Course.kept_le]
  rw [hpast, trim, hlength, Course.kept_step hmost hlost]
  split
  · rw [List.dropLast_eq_take, hlength, ← List.map_take, List.take_take]
    simp
  · rfl

/-! ## What each action does -/

theorem Shows.push (h : Shows limit c p) (s : Step) (hs : s.before = c.joint) :
    Shows limit (c.step s) ⟨s.after, { p.history with batch := none }.push s.back⟩ where
  tree := rfl
  limit_eq := h.limit_eq
  past := by
    have hmost := h.most
    rw [History.push, h.limit_eq, h.past, trim_past (by omega) h.lost]
    rfl
  future := rfl
  batch := rfl
  idle _ _ hbatch := by cases hbatch
  behind := ⟨rfl, hs ▸ h.behind⟩
  ahead := trivial
  most := by
    simp only [Course.step, List.length_cons, List.length_nil]
    omega
  lost hlimit := by
    have hlost := h.lost hlimit
    simp only [Course.step, List.length_cons]
    omega

theorem Shows.clear (h : Shows limit c p) :
    Shows limit { tree := c.tree } ⟨p.tree, p.history.clear⟩ := by
  have hstart := shows_start limit c.tree
  rw [History.clear, h.limit_eq, h.tree]
  exact hstart

theorem Shows.back (h : Shows limit c p) (hbatch : c.batch = none) {s : Step} {made : List Step}
    {k : Nat} (hmade : c.made = s :: made) (hkept : c.kept limit = k + 1) :
    Shows limit { c with tree := s.before, made, undone := s :: c.undone } (p.act .undo) := by
  have hbehind := h.behind
  have hahead := h.ahead
  have hmost := h.most
  rw [Course.joint_of_none hbatch] at hbehind hahead
  rw [hmade] at hbehind hmost
  rw [List.length_cons] at hmost
  have hpast : p.history.past = s.back :: (made.take k).map Step.back := by
    rw [h.past, hkept, hmade]
    rfl
  have hlost : 0 < limit → c.most - limit ≤ made.length := by
    intro hlimit
    rw [Course.kept, if_neg (by omega), hmade, List.length_cons] at hkept
    omega
  let c' : Course := { c with tree := s.before, made, undone := s :: c.undone }
  have hk : c'.kept limit = k := by
    have hsucc : c.kept limit = c'.kept limit + 1 :=
      Course.kept_succ (by rw [hmade]; rfl) rfl hlost
    omega
  have hjoint : c'.joint = s.before := Course.joint_of_none hbatch
  rw [Present.act, Present.undo?_of_cons hpast]
  exact {
    tree := rfl
    limit_eq := h.limit_eq
    past := by
      rw [hk]
      rfl
    future := by
      rw [h.future, h.tree, ← hbehind.1]
      rfl
    batch := h.batch
    idle := by simp [hbatch]
    behind := by
      change LeadTo c'.joint made
      exact hjoint ▸ hbehind.2
    ahead := by
      change s.before = c'.joint ∧ LeadFrom s.after c.undone
      exact ⟨hjoint.symm, hbehind.1 ▸ hahead⟩
    most := by
      simp only [List.length_cons]
      omega
    lost := hlost }

theorem Shows.undo (h : Shows limit c p) (hbatch : c.batch = none) :
    Shows limit (c.go limit .undo) (p.act .undo) := by
  cases hmade : c.made with
  | nil =>
    have hpast : p.history.past = [] := by rw [h.past, hmade]; simp
    rw [Course.go, hmade, Present.act, Present.undo?_of_nil hpast]
    exact h
  | cons s made =>
    simp only [Course.go, hmade]
    cases hkept : c.kept limit with
    | zero =>
      have hpast : p.history.past = [] := by rw [h.past, hkept]; rfl
      rw [if_pos rfl, Present.act, Present.undo?_of_nil hpast]
      exact h
    | succ k =>
      rw [if_neg (Nat.succ_ne_zero k)]
      exact h.back hbatch hmade hkept

theorem Shows.forth (h : Shows limit c p) (hbatch : c.batch = none) {s : Step} {undone : List Step}
    (hundone : c.undone = s :: undone) :
    Shows limit { c with tree := s.after, made := s :: c.made, undone } (p.act .redo) := by
  have hbehind := h.behind
  have hahead := h.ahead
  have hmost := h.most
  rw [Course.joint_of_none hbatch] at hbehind hahead
  rw [hundone] at hahead hmost
  rw [List.length_cons] at hmost
  have hfuture : p.history.future = s.forth :: undone.map Step.forth := by
    rw [h.future, hundone]
    rfl
  let c' : Course := { c with tree := s.after, made := s :: c.made, undone }
  have hkept : c'.kept limit = c.kept limit + 1 := Course.kept_succ rfl rfl h.lost
  have hjoint : c'.joint = s.after := Course.joint_of_none hbatch
  rw [Present.act, Present.redo?_of_cons hfuture]
  exact {
    tree := rfl
    limit_eq := h.limit_eq
    past := by
      rw [hkept, h.past, h.tree, ← hahead.1]
      rfl
    future := rfl
    batch := h.batch
    idle := by simp [hbatch]
    behind := by
      change s.after = c'.joint ∧ LeadTo s.before c.made
      exact ⟨hjoint.symm, hahead.1 ▸ hbehind⟩
    ahead := by
      change LeadFrom c'.joint undone
      exact hjoint ▸ hahead.2
    most := by
      simp only [List.length_cons]
      omega
    lost := by
      intro hlimit
      have hlost := h.lost hlimit
      simp only [List.length_cons]
      omega }

theorem Shows.redo (h : Shows limit c p) (hbatch : c.batch = none) :
    Shows limit (c.go limit .redo) (p.act .redo) := by
  rw [Course.go]
  cases hundone : c.undone with
  | nil =>
    have hfuture : p.history.future = [] := by rw [h.future, hundone]; rfl
    rw [Present.act, Present.redo?_of_nil hfuture]
    exact h
  | cons s undone => exact h.forth hbatch hundone

theorem Shows.go (h : Shows limit c p) (hbatch : c.batch = none) (a : Action) :
    Shows limit (c.go limit a) (p.act a) := by
  have hjoint := Course.joint_of_none hbatch
  have hnone : p.history.batch = none := by rw [h.batch, hbatch]; rfl
  have hsame : { p.history with batch := none } = p.history := by rw [← hnone]
  cases a with
  | edit after label =>
    have hpush := h.push ⟨c.tree, after, label⟩ hjoint.symm
    rw [hsame] at hpush
    rw [Course.go, Present.act, History.record, hnone, h.tree]
    exact hpush
  | beginBatch =>
    rw [Course.go, Present.act, History.beginBatch, hnone, h.tree]
    exact { h with
      tree := rfl
      batch := rfl
      idle := by rintro _ _ ⟨⟩ _; rfl
      behind := hjoint ▸ h.behind
      ahead := hjoint ▸ h.ahead }
  | labelBatch label =>
    rw [Course.go, Present.act, History.labelBatch, hnone, Option.map_none, hsame]
    exact h
  | endBatch =>
    rw [Course.go, Present.act, History.endBatch, hnone]
    exact h
  | undo => exact h.undo hbatch
  | redo => exact h.redo hbatch
  | clear => exact h.clear

theorem Shows.gather (h : Shows limit c p) (hbatch : c.batch = some (t, inner)) {a : Action}
    (ha : a ≠ .undo ∧ a ≠ .redo) : Shows limit (c.gather t inner a) (p.act a) := by
  have hjoint := Course.joint_of_some hbatch
  have hopen : p.history.batch = some (batchOf t inner) := by rw [h.batch, hbatch]; rfl
  cases a with
  | edit after label =>
    rw [Course.gather, Present.act, History.record, hopen]
    exact { h with
      tree := rfl
      batch := by simp [batchOf, firstEdit?_append, lastLabel?_append, firstEdit?, lastLabel?]
      idle := by
        rintro _ _ ⟨⟩ hfirst
        simp [firstEdit?_append, firstEdit?] at hfirst
      behind := hjoint ▸ h.behind
      ahead := hjoint ▸ h.ahead }
  | beginBatch =>
    rw [Course.gather, Present.act, History.beginBatch, hopen, Option.some_or, ← hopen]
    exact h
  | labelBatch label =>
    rw [Course.gather, Present.act, History.labelBatch, hopen]
    exact { h with
      batch := by simp [batchOf, firstEdit?_append, lastLabel?_append, firstEdit?, lastLabel?]
      idle := by
        rintro _ _ ⟨⟩ hfirst
        refine h.idle _ _ hbatch ?_
        simpa [firstEdit?_append, firstEdit?] using hfirst
      behind := hjoint ▸ h.behind
      ahead := hjoint ▸ h.ahead }
  | endBatch =>
    rw [Course.gather, Present.act, History.endBatch, hopen]
    cases hfirst : firstEdit? inner with
    | none =>
      have htree := h.idle _ _ hbatch hfirst
      have hclosed : ({ c with batch := none } : Course).joint = c.joint := htree.trans hjoint.symm
      simp only [batchOf, hfirst]
      exact { h with
        batch := rfl
        idle := by rintro _ _ ⟨⟩
        behind := hclosed ▸ h.behind
        ahead := hclosed ▸ h.ahead }
    | some first =>
      simp only [batchOf, hfirst]
      rw [h.tree]
      exact h.push ⟨t, c.tree, (lastLabel? inner).getD first⟩ hjoint.symm
  | undo => exact absurd rfl ha.1
  | redo => exact absurd rfl ha.2
  | clear => exact h.clear

theorem Shows.act (h : Shows limit c p) {a : Action}
    (ha : a = .undo ∨ a = .redo → p.history.batch = none) :
    Shows limit (c.act limit a) (p.act a) := by
  rw [Course.act]
  cases hbatch : c.batch with
  | none => exact h.go hbatch a
  | some b =>
    have hopen : p.history.batch ≠ none := by rw [h.batch, hbatch]; simp
    have hundo : a ≠ .undo := fun h => hopen (ha (.inl h))
    have hredo : a ≠ .redo := fun h => hopen (ha (.inr h))
    exact h.gather hbatch ⟨hundo, hredo⟩

theorem Shows.run (as : List Action) : ∀ {c : Course} {p : Present}, Shows limit c p →
    p.Orderly as → Shows limit (c.run limit as) (p.run as) := by
  induction as with
  | nil => exact fun h _ => h
  | cons a as ih => exact fun h has => ih (h.act has.1) has.2

/-! ## Runs from the start -/

/-- After an orderly run the entries to undo are those of the latest steps made, and none of them is
missing but those that had to make room: of the steps there were at once, more than the limit
allows. What can be undone and redone stays within the limit together, and redoing what was undone,
or undoing what was redone, changes nothing. -/
theorem undo_redo_levels (limit : Nat) (t : Tree) (as : List Action)
    (has : Present.Orderly ⟨t, { limit }⟩ as) :
    let p := Present.run ⟨t, { limit }⟩ as
    let c := Course.run limit { tree := t } as
    p.tree = c.tree ∧
      p.history.past = (c.made.take (c.kept limit)).map Step.back ∧
      p.history.future = c.undone.map Step.forth ∧
      (0 < limit → p.history.undoLevels ≤ limit ∧
        p.history.undoLevels + p.history.redoLevels ≤ limit) ∧
      (∀ p', p.undo? = some p' → p'.redo? = some p) ∧
      (∀ p', p.redo? = some p' → p'.undo? = some p) := by
  have h := (shows_start limit t).run as has
  refine ⟨h.tree, h.past, h.future, ?_, fun _ => Present.redo?_of_undo?,
    fun _ => Present.undo?_of_redo?⟩
  intro hlimit
  have hlevels := Course.levels_le hlimit h.most (h.lost hlimit)
  have hkept := Course.kept_le limit (Course.run limit { tree := t } as)
  simp only [undoLevels, redoLevels, h.past, h.future, List.length_map, List.length_take]
  omega

/-- A page with one paragraph. -/
def paragraph (id : String) : Tree :=
  Tree.empty.edit fun root => { root with children := [{ id, fields := { type := "p" } }] }

/-- Two steps, of which the second is a batch, which is undone and redone. -/
def twoSteps : List Action :=
  [.edit (paragraph "a") "Add a", .beginBatch, .edit (paragraph "b") "Add b", .beginBatch,
    .labelBatch "Add two", .edit (paragraph "c") "Add c", .endBatch, .undo, .redo]

theorem undo_redo_levels_twoSteps :
    Present.Orderly ⟨.empty, { limit := 1 }⟩ twoSteps ∧
      (Present.run ⟨.empty, { limit := 1 }⟩ twoSteps).history.past = [⟨paragraph "a", "Add two"⟩] ∧
      (Present.run ⟨.empty, { limit := 1 }⟩ twoSteps).tree = paragraph "c" := by
  have has : Present.Orderly ⟨.empty, { limit := 1 }⟩ twoSteps := by
    refine ⟨?_, ?_, ?_, ?_, ?_, ?_, ?_, fun _ => rfl, fun _ => rfl, trivial⟩ <;> simp
  obtain ⟨htree, hpast, _⟩ := undo_redo_levels 1 .empty twoSteps has
  exact ⟨has, hpast, htree⟩

end PageEditor.History
