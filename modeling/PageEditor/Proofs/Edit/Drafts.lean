import PageEditor.Edit.Pending

/-!
# Drafts

What becomes of the values that are staged, told by what happened to the drafts and not by the
drafts themselves. The draft of a key is what was staged last since the key was last returned or
dropped. A stage is the last one of its key from its own event up to the first one that returns it,
supersedes it or drops it with its node; so one of these happens to it, once, or it is still a
draft.
-/
set_option autoImplicit false

namespace PageEditor.Pending

/-! ## What happened -/

inductive Action
  | stage (e : PropertyEdit) (now : Nat)
  | due (now : Nat)
  | flush (key : EditKey)
  | flushAll
  | discard (nodeId : String)
  deriving DecidableEq

/-- The edits that an action returns, and the drafts behind it. -/
def act (p : Pending) : Action → List PropertyEdit × Pending
  | .stage e now => ([], p.stage e now)
  | .due now => p.due now
  | .flush key => p.flush key
  | .flushAll => p.flushAll
  | .discard nodeId => ([], p.discard nodeId)

/-- The drafts that the action takes out go to the caller. -/
def Action.Returns : Action → Prop
  | .stage _ _ | .discard _ => False
  | .due _ | .flush _ | .flushAll => True

/-- An action and the edits that it returned. -/
structure Event where
  action : Action
  returned : List PropertyEdit

/-- What happened in a run of actions and the drafts behind it. Actions and events stand with the
latest one first. -/
def after (quiet : Nat) : List Action → List Event × Pending
  | [] => ([], { quiet })
  | a :: as =>
    let (events, p) := after quiet as
    (⟨a, (p.act a).1⟩ :: events, (p.act a).2)

/-- A value that was staged, when, and how many events there were before. -/
structure Stage where
  number : Nat
  edit : PropertyEdit
  now : Nat
  deriving DecidableEq

def Stage.draft (s : Stage) : Draft := ⟨s.edit, s.now⟩

namespace Event

/-- The key is returned, or dropped with its node. -/
def Removes (ev : Event) (key : EditKey) : Prop :=
  key ∈ ev.returned.map (·.key) ∨ ev.action = .discard key.nodeId

instance (ev : Event) (key : EditKey) : Decidable (ev.Removes key) :=
  inferInstanceAs (Decidable (_ ∨ _))

/-- The stage of the key that the event is, if it is one. -/
def stage? (ev : Event) (key : EditKey) (number : Nat) : Option Stage :=
  match ev.action with
  | .stage e now => if e.key = key then some ⟨number, e, now⟩ else none
  | _ => none

end Event

/-- The last stage of a key since the key was last removed. -/
def lastStage? (key : EditKey) : List Event → Option Stage
  | [] => none
  | ev :: events =>
    if ev.Removes key then none
    else (ev.stage? key events.length).or (lastStage? key events)

/-- The number of the first stage of a key since the key was last removed. -/
def entered? (key : EditKey) : List Event → Option Nat
  | [] => none
  | ev :: events =>
    if ev.Removes key then none
    else (entered? key events).or ((ev.stage? key events.length).map (·.number))

/-- Both keys are in, the one before the other. -/
def EnteredBefore (events : List Event) (key key' : EditKey) : Prop :=
  ∃ m n, entered? key events = some m ∧ entered? key' events = some n ∧ m < n

inductive Fate
  | returned
  | superseded
  | discarded

/-- What an event does to a stage that is the last one of its key. Each time it is returned counts
for itself. -/
def Event.fates (ev : Event) (s : Stage) : List Fate :=
  match ev.action with
  | .stage e _ => if e.key = s.edit.key then [.superseded] else []
  | .discard nodeId => if s.edit.key.nodeId = nodeId then [.discarded] else []
  | _ => List.replicate (ev.returned.count s.edit) .returned

/-- Everything that happened to a stage while it was the last one of its key. -/
def fates (s : Stage) : List Event → List Fate
  | [] => []
  | ev :: events =>
    (if lastStage? s.edit.key events = some s then ev.fates s else []) ++ fates s events

/-- All stages, the latest first. -/
def stages : List Event → List Stage
  | [] => []
  | ev :: events =>
    match ev.action with
    | .stage e now => ⟨events.length, e, now⟩ :: stages events
    | _ => stages events

/-- What an event returns is what the events before it say. -/
def Event.IsAnswer (quiet : Nat) (events : List Event) (ev : Event) : Prop :=
  match ev.action with
  | .stage _ _ | .discard _ => ev.returned = []
  | .due now => ∀ e, e ∈ ev.returned ↔
      ∃ s, lastStage? e.key events = some s ∧ s.edit = e ∧ quiet ≤ now - s.now
  | .flush key => ev.returned = ((lastStage? key events).map (·.edit)).toList
  | .flushAll => ∀ e, e ∈ ev.returned ↔ ∃ s, lastStage? e.key events = some s ∧ s.edit = e

/-- Each event returned what the events before it say, in the order in which the keys came in. -/
def Answered (quiet : Nat) : List Event → Prop
  | [] => True
  | ev :: events =>
    (ev.IsAnswer quiet events ∧ (ev.returned.map (·.key)).Pairwise (EnteredBefore events)) ∧
      Answered quiet events

/-- The stage is the last one of its key and nothing happened to it, or one thing did and it is the
last one no more. -/
def Stage.HasOneFate (s : Stage) (events : List Event) (fs : List Fate) : Prop :=
  (lastStage? s.edit.key events = some s ∧ fs = []) ∨
    (lastStage? s.edit.key events ≠ some s ∧ ∃ f, fs = [f])

/-- The drafts are what is left of the events, and nothing that was staged is lost or returned
twice. -/
structure Accounts (quiet : Nat) (events : List Event) (p : Pending) : Prop where
  one_each : (p.drafts.map (·.edit.key)).Nodup
  shown : ∀ key, p.draft? key = (lastStage? key events).map (·.edit.value)
  kept : ∀ d, d ∈ p.drafts ↔ ∃ s, lastStage? d.edit.key events = some s ∧ s.draft = d
  answered : Answered quiet events
  fate : ∀ s ∈ stages events, s.HasOneFate events (fates s events)

/-! ## Stages and their keys -/

variable {events : List Event} {ev : Event} {key : EditKey} {s : Stage} {n : Nat}

theorem stage?_eq_some (h : ev.stage? key n = some s) :
    s.edit.key = key ∧ s.number = n ∧ ev.action = .stage s.edit s.now := by
  unfold Event.stage? at h
  split at h
  · rename_i e now hstage
    split at h
    · rename_i hkey
      cases h
      exact ⟨hkey, rfl, hstage⟩
    · cases h
  · cases h

theorem stage?_eq_none (h : ev.action.Returns) (key : EditKey) (n : Nat) :
    ev.stage? key n = none := by
  obtain ⟨action, returned⟩ := ev
  cases action <;> first | rfl | cases h

theorem removes_iff (h : ev.action.Returns) : ev.Removes key ↔ key ∈ ev.returned.map (·.key) := by
  refine or_iff_left fun hdiscard => ?_
  rw [hdiscard] at h
  exact h

theorem fates_eq_replicate (h : ev.action.Returns) (s : Stage) :
    ev.fates s = List.replicate (ev.returned.count s.edit) .returned := by
  obtain ⟨action, returned⟩ := ev
  cases action <;> first | rfl | cases h

theorem removes_discard (nodeId : String) :
    Event.Removes ⟨.discard nodeId, []⟩ key ↔ key.nodeId = nodeId := by
  simp [Event.Removes, eq_comm]

theorem lastStage?_eq_some (h : lastStage? key events = some s) :
    s.edit.key = key ∧ s.number < events.length := by
  induction events with
  | nil => cases h
  | cons ev events ih =>
    rw [lastStage?] at h
    split at h
    · cases h
    · rw [List.length_cons]
      rcases Option.or_eq_some_iff.1 h with hnew | ⟨_, hold⟩
      · obtain ⟨hkey, hnumber, _⟩ := stage?_eq_some hnew
        exact ⟨hkey, by omega⟩
      · obtain ⟨hkey, hnumber⟩ := ih hold
        exact ⟨hkey, by omega⟩

theorem entered?_lt (h : entered? key events = some n) : n < events.length := by
  induction events with
  | nil => cases h
  | cons ev events ih =>
    rw [entered?] at h
    split at h
    · cases h
    · rw [List.length_cons]
      rcases Option.or_eq_some_iff.1 h with hold | ⟨_, hnew⟩
      · have hlt := ih hold
        omega
      · obtain ⟨s, hs, rfl⟩ := Option.map_eq_some_iff.1 hnew
        have hnumber := (stage?_eq_some hs).2.1
        omega

theorem entered?_eq_none_iff : entered? key events = none ↔ lastStage? key events = none := by
  induction events with
  | nil => simp [entered?, lastStage?]
  | cons ev events ih =>
    rw [entered?, lastStage?]
    split
    · simp
    · rw [Option.or_eq_none_iff, Option.or_eq_none_iff, Option.map_eq_none_iff, ih, and_comm]

/-! ## Drafts by their keys -/

def keys (ds : List Draft) : List EditKey := ds.map (·.edit.key)

def draftFor? (key : EditKey) (ds : List Draft) : Option Draft := ds.find? (·.edit.key == key)

variable {ds : List Draft} {d : Draft}

theorem draftFor?_cons (key : EditKey) (d : Draft) (ds : List Draft) :
    draftFor? key (d :: ds) = if d.edit.key = key then some d else draftFor? key ds := by
  rw [draftFor?, List.find?_cons]
  by_cases hkey : d.edit.key = key
  · simp [hkey]
  · rw [if_neg hkey, beq_false_of_ne hkey, draftFor?]

theorem draftFor?_eq_none_iff : draftFor? key ds = none ↔ key ∉ keys ds := by
  simp [draftFor?, keys]

theorem draftFor?_eq_some_iff (hnodup : (keys ds).Nodup) :
    draftFor? key ds = some d ↔ d ∈ ds ∧ d.edit.key = key := by
  induction ds with
  | nil => simp [draftFor?]
  | cons x ds ih =>
    rw [keys, List.map_cons, List.nodup_cons] at hnodup
    rw [draftFor?_cons]
    split
    · rename_i hx
      constructor
      · rintro ⟨⟩
        exact ⟨List.mem_cons_self, hx⟩
      · rintro ⟨hd, hkey⟩
        rcases List.mem_cons.1 hd with rfl | hd
        · rfl
        · exact absurd (List.mem_map.2 ⟨d, hd, hkey.trans hx.symm⟩) hnodup.1
    · rename_i hx
      rw [ih hnodup.2, List.mem_cons]
      constructor
      · exact fun h => ⟨.inr h.1, h.2⟩
      · rintro ⟨rfl | hd, hkey⟩
        · exact absurd hkey hx
        · exact ⟨hd, hkey⟩

theorem draftFor?_put (d : Draft) (key : EditKey) (ds : List Draft) :
    draftFor? key (put d ds) = if d.edit.key = key then some d else draftFor? key ds := by
  induction ds with
  | nil => rw [put, draftFor?_cons]
  | cons x ds ih =>
    rw [put]
    split
    · rename_i hx
      rw [draftFor?_cons, draftFor?_cons, hx]
      split <;> rfl
    · rename_i hx
      rw [draftFor?_cons, draftFor?_cons, ih]
      split
      · rename_i hkey
        rw [if_neg fun h => hx (hkey.trans h.symm)]
      · rfl

theorem keys_put_of_mem (h : d.edit.key ∈ keys ds) : keys (put d ds) = keys ds := by
  induction ds with
  | nil => cases h
  | cons x ds ih =>
    rw [put]
    split
    · rename_i hx
      simp [keys, hx]
    · rename_i hx
      have hmore : d.edit.key ∈ keys ds := (List.mem_cons.1 h).resolve_left (Ne.symm hx)
      exact congrArg (x.edit.key :: ·) (ih hmore)

theorem keys_put_of_notMem (h : d.edit.key ∉ keys ds) :
    keys (put d ds) = keys ds ++ [d.edit.key] := by
  induction ds with
  | nil => rfl
  | cons x ds ih =>
    rw [keys, List.map_cons, List.mem_cons, not_or] at h
    rw [put, if_neg (Ne.symm h.1)]
    exact congrArg (x.edit.key :: ·) (ih h.2)

theorem keys_filter_sublist (stays : Draft → Bool) : (keys (ds.filter stays)).Sublist (keys ds) :=
  (List.filter_sublist).map _

theorem draftFor?_filter (hnodup : (keys ds).Nodup) (stays : Draft → Bool) :
    draftFor? key (ds.filter stays) = (draftFor? key ds).filter stays := by
  ext d
  have hfilter := hnodup.sublist (keys_filter_sublist stays)
  rw [draftFor?_eq_some_iff hfilter, Option.filter_eq_some_iff, draftFor?_eq_some_iff hnodup,
    List.mem_filter]
  exact and_right_comm

/-! ## The drafts and what happened -/

/-- The drafts are the last stages of their keys, in the order in which the keys came in. -/
structure Tracks (quiet : Nat) (events : List Event) (p : Pending) : Prop where
  quiet_eq : p.quiet = quiet
  found : ∀ key, draftFor? key p.drafts = (lastStage? key events).map Stage.draft
  ordered : (keys p.drafts).Pairwise (EnteredBefore events)

variable {quiet : Nat} {p : Pending}

theorem EnteredBefore.ne {key' : EditKey} (h : EnteredBefore events key key') : key ≠ key' := by
  rintro rfl
  obtain ⟨m, n, hm, hn, hlt⟩ := h
  rw [hm, Option.some.injEq] at hn
  omega

theorem Tracks.nodup (h : Tracks quiet events p) : (keys p.drafts).Nodup :=
  h.ordered.imp EnteredBefore.ne

theorem Tracks.mem_drafts (h : Tracks quiet events p) :
    d ∈ p.drafts ↔ ∃ s, lastStage? d.edit.key events = some s ∧ s.draft = d := by
  have hd : draftFor? d.edit.key p.drafts = some d ↔ d ∈ p.drafts ∧ d.edit.key = d.edit.key :=
    draftFor?_eq_some_iff h.nodup
  rw [h.found, Option.map_eq_some_iff] at hd
  simpa using hd.symm

theorem Tracks.entered?_eq_none_iff (h : Tracks quiet events p) :
    entered? key events = none ↔ key ∉ keys p.drafts := by
  rw [Pending.entered?_eq_none_iff, ← draftFor?_eq_none_iff, h.found, Option.map_eq_none_iff]

theorem tracks_start (quiet : Nat) : Tracks quiet [] { quiet } where
  quiet_eq := rfl
  found _ := rfl
  ordered := .nil

/-! ## Staging -/

theorem stage?_stage (e : PropertyEdit) (now : Nat) (key : EditKey) (n : Nat) :
    Event.stage? ⟨.stage e now, []⟩ key n = if e.key = key then some ⟨n, e, now⟩ else none := rfl

theorem lastStage?_stage (e : PropertyEdit) (now : Nat) (key : EditKey) (events : List Event) :
    lastStage? key (⟨.stage e now, []⟩ :: events) =
      if e.key = key then some ⟨events.length, e, now⟩ else lastStage? key events := by
  rw [lastStage?, if_neg (by simp [Event.Removes]), stage?_stage]
  split <;> simp

theorem entered?_stage (e : PropertyEdit) (now : Nat) (key : EditKey) (events : List Event) :
    entered? key (⟨.stage e now, []⟩ :: events) =
      (entered? key events).or (if e.key = key then some events.length else none) := by
  rw [entered?, if_neg (by simp [Event.Removes]), stage?_stage]
  split <;> simp

theorem EnteredBefore.stage {key' : EditKey} (h : EnteredBefore events key key') (e : PropertyEdit)
    (now : Nat) : EnteredBefore (⟨.stage e now, []⟩ :: events) key key' := by
  obtain ⟨m, n, hm, hn, hlt⟩ := h
  refine ⟨m, n, ?_, ?_, hlt⟩
  · rw [entered?_stage, hm, Option.some_or]
  · rw [entered?_stage, hn, Option.some_or]

theorem Tracks.stage (h : Tracks quiet events p) (e : PropertyEdit) (now : Nat) :
    Tracks quiet (⟨.stage e now, []⟩ :: events) (p.stage e now) where
  quiet_eq := h.quiet_eq
  found key := by
    rw [Pending.stage, draftFor?_put, lastStage?_stage, h.found]
    split <;> rfl
  ordered := by
    have hold := h.ordered.imp fun hbefore => EnteredBefore.stage hbefore e now
    by_cases hmem : e.key ∈ keys p.drafts
    · rw [Pending.stage, keys_put_of_mem hmem]
      exact hold
    · rw [Pending.stage, keys_put_of_notMem hmem]
      refine List.pairwise_append.2 ⟨hold, List.pairwise_singleton _ _, ?_⟩
      intro key hkey key' hkey'
      rw [List.mem_singleton.1 hkey']
      have hold : entered? key events ≠ none := fun hno => h.entered?_eq_none_iff.1 hno hkey
      have hnew : entered? e.key events = none := h.entered?_eq_none_iff.2 hmem
      obtain ⟨m, hm⟩ := Option.ne_none_iff_exists'.1 hold
      refine ⟨m, events.length, ?_, ?_, entered?_lt hm⟩
      · rw [entered?_stage, hm, Option.some_or]
      · rw [entered?_stage, hnew, Option.none_or, if_pos rfl]

/-! ## Releasing -/

theorem Tracks.release (h : Tracks quiet events p) (ev : Event) (ready : Draft → Bool)
    (hstage : ∀ key n, ev.stage? key n = none)
    (hev : ∀ d ∈ p.drafts, ev.Removes d.edit.key ↔ ready d = true) :
    Tracks quiet (ev :: events) (p.release ready).2 where
  quiet_eq := h.quiet_eq
  found key := by
    rw [Pending.release, draftFor?_filter h.nodup, lastStage?, hstage, Option.none_or]
    have hfound := h.found key
    cases hd : draftFor? key p.drafts with
    | none =>
      rw [hd] at hfound
      have hnone := Option.map_eq_none_iff.1 hfound.symm
      simp [hnone]
    | some d =>
      obtain ⟨hmem, rfl⟩ := (draftFor?_eq_some_iff h.nodup).1 hd
      rw [hd] at hfound
      rw [Option.filter_some]
      cases hready : ready d with
      | true => simp [(hev d hmem).2 hready]
      | false =>
        have hno : ¬ev.Removes d.edit.key := by simp [hev d hmem, hready]
        simpa [hno] using hfound
  ordered := by
    have hsub := h.ordered.sublist (keys_filter_sublist fun d => !ready d)
    refine hsub.imp_of_mem ?_
    have hsame : ∀ key ∈ keys (p.drafts.filter fun d => !ready d),
        entered? key (ev :: events) = entered? key events := by
      intro key hkey
      obtain ⟨d, hd, rfl⟩ := List.mem_map.1 hkey
      obtain ⟨hmem, hstays⟩ := List.mem_filter.1 hd
      have hno : ¬ev.Removes d.edit.key := by simpa [hev d hmem] using hstays
      rw [entered?, if_neg hno, hstage, Option.map_none, Option.or_none]
    rintro key key' hkey hkey' ⟨m, n, hm, hn, hlt⟩
    exact ⟨m, n, by rw [hsame key hkey, hm], by rw [hsame key' hkey', hn], hlt⟩

theorem map_key_release (p : Pending) (ready : Draft → Bool) :
    (p.release ready).1.map (·.key) = keys (p.drafts.filter ready) := by
  rw [Pending.release, List.map_map]
  rfl

theorem Tracks.mem_keys_filter (h : Tracks quiet events p) (ready : Draft → Bool)
    (hd : d ∈ p.drafts) :
    d.edit.key ∈ keys (p.drafts.filter ready) ↔ ready d = true := by
  constructor
  · intro hkey
    obtain ⟨d', hd', hsame⟩ := List.mem_map.1 hkey
    obtain ⟨hmem, hready⟩ := List.mem_filter.1 hd'
    have hone := (draftFor?_eq_some_iff h.nodup).2 ⟨hd, rfl⟩
    rw [(draftFor?_eq_some_iff h.nodup).2 ⟨hmem, hsame⟩, Option.some.injEq] at hone
    exact hone ▸ hready
  · exact fun hready => List.mem_map.2 ⟨d, List.mem_filter.2 ⟨hd, hready⟩, rfl⟩

theorem Tracks.returns (h : Tracks quiet events p) (ready : Draft → Bool) {a : Action}
    (ha : a.Returns) :
    Tracks quiet (⟨a, (p.release ready).1⟩ :: events) (p.release ready).2 := by
  refine h.release ⟨a, (p.release ready).1⟩ ready (stage?_eq_none ha) fun d hd => ?_
  rw [removes_iff ha, map_key_release]
  exact h.mem_keys_filter ready hd

theorem Tracks.act (h : Tracks quiet events p) (a : Action) :
    Tracks quiet (⟨a, (p.act a).1⟩ :: events) (p.act a).2 := by
  cases a with
  | stage e now => exact h.stage e now
  | due now => exact h.returns _ trivial
  | flush key => exact h.returns _ trivial
  | flushAll => exact h.returns _ trivial
  | discard nodeId =>
    -- The drafts of the node are released, but go to nobody.
    exact h.release ⟨.discard nodeId, []⟩ (fun d => d.edit.key.nodeId == nodeId) (fun _ _ => rfl)
      fun d _ => by rw [removes_discard, beq_iff_eq]

theorem tracks_after (quiet : Nat) (as : List Action) :
    Tracks quiet (after quiet as).1 (after quiet as).2 := by
  induction as with
  | nil => exact tracks_start quiet
  | cons a as ih => exact ih.act a

/-! ## What is returned -/

theorem Tracks.mem_release (h : Tracks quiet events p) (ready : Draft → Bool) (e : PropertyEdit) :
    e ∈ (p.release ready).1 ↔
      ∃ s, lastStage? e.key events = some s ∧ s.edit = e ∧ ready s.draft = true := by
  rw [Pending.release, List.mem_map]
  constructor
  · rintro ⟨d, hd, rfl⟩
    obtain ⟨hmem, hready⟩ := List.mem_filter.1 hd
    obtain ⟨s, hs, rfl⟩ := h.mem_drafts.1 hmem
    exact ⟨s, hs, rfl, hready⟩
  · rintro ⟨s, hs, rfl, hready⟩
    exact ⟨s.draft, List.mem_filter.2 ⟨h.mem_drafts.2 ⟨s, hs, rfl⟩, hready⟩, rfl⟩

/-- At most one draft has a given key, so flushing the key finds all that there is. -/
theorem filter_key (hnodup : (keys ds).Nodup) (key : EditKey) :
    ds.filter (·.edit.key == key) = (draftFor? key ds).toList := by
  induction ds with
  | nil => rfl
  | cons d ds ih =>
    rw [keys, List.map_cons, List.nodup_cons] at hnodup
    rw [draftFor?_cons]
    split
    · rename_i hd
      have hmore : ds.filter (·.edit.key == key) = [] := by
        rw [ih hnodup.2, draftFor?_eq_none_iff.2 (hd ▸ hnodup.1)]
        rfl
      rw [List.filter_cons_of_pos (by simpa using hd), hmore]
      rfl
    · rename_i hd
      rw [List.filter_cons_of_neg (by simpa using hd), ih hnodup.2]

theorem Tracks.isAnswer (h : Tracks quiet events p) (a : Action) :
    Event.IsAnswer quiet events ⟨a, (p.act a).1⟩ := by
  cases a with
  | stage e now => rfl
  | due now =>
    intro e
    refine (h.mem_release _ e).trans ?_
    simp [h.quiet_eq, Stage.draft]
  | flush key =>
    change (p.drafts.filter _).map _ = _
    rw [filter_key h.nodup, h.found]
    cases lastStage? key events <;> rfl
  | flushAll =>
    intro e
    refine (h.mem_release _ e).trans ?_
    simp
  | discard nodeId => rfl

theorem Tracks.ordered_act (h : Tracks quiet events p) (a : Action) :
    ((p.act a).1.map (·.key)).Pairwise (EnteredBefore events) := by
  have hrelease : ∀ ready, ((p.release ready).1.map (·.key)).Pairwise (EnteredBefore events) := by
    intro ready
    rw [map_key_release]
    exact h.ordered.sublist (keys_filter_sublist ready)
  cases a with
  | stage e now => exact .nil
  | due now => exact hrelease _
  | flush key => exact hrelease _
  | flushAll => exact hrelease _
  | discard nodeId => exact .nil

theorem answered_after (quiet : Nat) (as : List Action) : Answered quiet (after quiet as).1 := by
  induction as with
  | nil => trivial
  | cons a as ih =>
    have h := tracks_after quiet as
    exact ⟨⟨h.isAnswer a, h.ordered_act a⟩, ih⟩

/-! ## What becomes of a stage -/

theorem Event.IsAnswer.lastStage? (h : ev.IsAnswer quiet events) {e : PropertyEdit}
    (he : e ∈ ev.returned) : ∃ s, Pending.lastStage? e.key events = some s ∧ s.edit = e := by
  unfold Event.IsAnswer at h
  split at h
  · simp [h] at he
  · simp [h] at he
  · obtain ⟨s, hs, hedit, _⟩ := (h e).1 he
    exact ⟨s, hs, hedit⟩
  · rename_i key _
    rw [h, Option.mem_toList, Option.map_eq_some_iff] at he
    obtain ⟨s, hs, rfl⟩ := he
    rw [(lastStage?_eq_some hs).1]
    exact ⟨s, hs, rfl⟩
  · exact (h e).1 he

theorem lastStage?_cons_ne (h : lastStage? key events ≠ some s) (hs : s.number < events.length) :
    lastStage? key (ev :: events) ≠ some s := by
  intro hlast
  rw [lastStage?] at hlast
  split at hlast
  · cases hlast
  · rcases Option.or_eq_some_iff.1 hlast with hnew | ⟨_, hold⟩
    · have hnumber := (stage?_eq_some hnew).2.1
      omega
    · exact h hold

theorem number_lt_of_mem_stages (h : s ∈ stages events) : s.number < events.length := by
  induction events with
  | nil => cases h
  | cons ev events ih =>
    rw [stages] at h
    rw [List.length_cons]
    split at h
    · rcases List.mem_cons.1 h with rfl | h
      · exact Nat.lt_succ_self _
      · exact Nat.lt_succ_of_lt (ih h)
    · exact Nat.lt_succ_of_lt (ih h)

theorem fates_eq_nil (h : events.length ≤ s.number + 1) : fates s events = [] := by
  induction events with
  | nil => rfl
  | cons ev events ih =>
    rw [List.length_cons] at h
    have hnot : lastStage? s.edit.key events ≠ some s := by
      intro hs
      have hlt := (lastStage?_eq_some hs).2
      omega
    rw [fates, if_neg hnot, ih (by omega), List.nil_append]

/-- The last stage of its key is returned once, or not at all if it stays. -/
theorem fate_of_returns (ha : ev.action.Returns) (h : ev.IsAnswer quiet events)
    (hnodup : ev.returned.Nodup) (hs : lastStage? s.edit.key events = some s) :
    s.HasOneFate (ev :: events) (ev.fates s) := by
  rw [fates_eq_replicate ha, hnodup.count]
  by_cases hmem : s.edit ∈ ev.returned
  · right
    have hgone : ev.Removes s.edit.key := (removes_iff ha).2 (List.mem_map_of_mem hmem)
    rw [lastStage?, if_pos hgone, if_pos hmem]
    exact ⟨nofun, .returned, rfl⟩
  · left
    have hstays : ¬ev.Removes s.edit.key := by
      rw [removes_iff ha, List.mem_map]
      rintro ⟨e, he, hsame⟩
      obtain ⟨s', hs', rfl⟩ := h.lastStage? he
      rw [hsame, hs, Option.some.injEq] at hs'
      exact hmem (hs' ▸ he)
    rw [lastStage?, if_neg hstays, stage?_eq_none ha, Option.none_or, if_neg hmem]
    exact ⟨hs, rfl⟩

theorem fate_of_last (h : ev.IsAnswer quiet events) (hnodup : ev.returned.Nodup)
    (hs : lastStage? s.edit.key events = some s) : s.HasOneFate (ev :: events) (ev.fates s) := by
  obtain ⟨a, returned⟩ := ev
  cases a with
  | stage e now =>
    obtain rfl : returned = [] := h
    by_cases hkey : e.key = s.edit.key
    · right
      rw [lastStage?_stage, if_pos hkey]
      refine ⟨fun hsame => ?_, .superseded, if_pos hkey⟩
      have hlt := (lastStage?_eq_some hs).2
      rw [← Option.some.inj hsame] at hlt
      exact Nat.lt_irrefl _ hlt
    · left
      rw [lastStage?_stage, if_neg hkey]
      exact ⟨hs, if_neg hkey⟩
  | due now => exact fate_of_returns trivial h hnodup hs
  | flush key => exact fate_of_returns trivial h hnodup hs
  | flushAll => exact fate_of_returns trivial h hnodup hs
  | discard nodeId =>
    obtain rfl : returned = [] := h
    by_cases hnode : s.edit.key.nodeId = nodeId
    · right
      rw [lastStage?, if_pos ((removes_discard nodeId).2 hnode)]
      exact ⟨nofun, .discarded, if_pos hnode⟩
    · left
      rw [lastStage?, if_neg (mt (removes_discard nodeId).1 hnode)]
      exact ⟨hs, if_neg hnode⟩

/-- A stage that is the last one of its key goes through one more event, and one that is not stays
as it is. -/
theorem fate_step (hs : s.HasOneFate events (fates s events)) (hnumber : s.number < events.length)
    (h : ev.IsAnswer quiet events) (hnodup : ev.returned.Nodup) :
    s.HasOneFate (ev :: events) (fates s (ev :: events)) := by
  rw [fates]
  rcases hs with ⟨hlast, hnothing⟩ | ⟨hlast, hfate⟩
  · rw [if_pos hlast, hnothing, List.append_nil]
    exact fate_of_last h hnodup hlast
  · rw [if_neg hlast, List.nil_append]
    exact .inr ⟨lastStage?_cons_ne hlast hnumber, hfate⟩

theorem nodup_of_ordered {es : List PropertyEdit}
    (h : (es.map (·.key)).Pairwise (EnteredBefore events)) : es.Nodup :=
  List.Pairwise.of_map _ (fun _ _ hne heq => hne (congrArg _ heq)) (h.imp EnteredBefore.ne)

theorem fate_of_answered (h : Answered quiet events) :
    ∀ s ∈ stages events, s.HasOneFate events (fates s events) := by
  induction events with
  | nil => nofun
  | cons ev events ih =>
    obtain ⟨⟨hanswer, hordered⟩, hmore⟩ := h
    have hold : ∀ s ∈ stages events, s.HasOneFate (ev :: events) (fates s (ev :: events)) :=
      fun s hs => fate_step (ih hmore s hs) (number_lt_of_mem_stages hs) hanswer
        (nodup_of_ordered hordered)
    intro s hs
    rw [stages] at hs
    split at hs
    · rename_i e now hstage
      rcases List.mem_cons.1 hs with rfl | hs
      · left
        obtain ⟨a, returned⟩ := ev
        obtain rfl : a = .stage e now := hstage
        obtain rfl : returned = [] := hanswer
        rw [lastStage?_stage, if_pos rfl]
        exact ⟨rfl, fates_eq_nil (Nat.le_refl _)⟩
      · exact hold s hs
    · exact hold s hs

/-! ## The whole run -/

theorem accounts_after (quiet : Nat) (as : List Action) :
    Accounts quiet (after quiet as).1 (after quiet as).2 := by
  have h := tracks_after quiet as
  have hanswered := answered_after quiet as
  exact {
    one_each := h.nodup
    shown := fun key => by
      change (draftFor? key _).map _ = _
      rw [h.found, Option.map_map]
      rfl
    kept := fun d => h.mem_drafts
    answered := hanswered
    fate := fate_of_answered hanswered }

/-- Typing on starts the wait anew, and what is returned is what was typed last. -/
example (key : EditKey) :
    (after 300 [.due 400, .due 300, .stage ⟨key, "He"⟩ 100, .stage ⟨key, "H"⟩ 0]).1.map
      (·.returned) = [[⟨key, "He"⟩], [], [], []] := by
  simp [after, act, stage, put, due, release]

end PageEditor.Pending
