import Mathlib.Data.Finset.Basic
import PageEditor.Component.Queue

/-!
# Handing out

What becomes of the jobs of a queue. Each accepted job is handed out once, in the order of
acceptance, to a run in idle time or to whoever drains the queue. The keys that wait may be kept in
a set of their own; it stays the set of the keys of the waiting jobs, since no two of these have one
key. It makes no difference whether the jobs are compiled and cached one after the other or all
compiled first.
-/
set_option autoImplicit false

namespace PageEditor

/-! ## Runs -/

namespace Queue

inductive Action
  | enqueue (j : Job)
  | runIdle (budget : Budget) (env : Environment) (cache : Cache) (t : Tree)
  | drain

inductive Answer
  | queued (accepted : Bool)
  | ran (report : IdleReport) (cache : Cache)
  | drained (js : List Job)

def act (q : Queue) : Action → Answer × Queue
  | .enqueue j => (.queued (q.enqueue j).1, (q.enqueue j).2)
  | .runIdle budget env cache t =>
    let (report, q, cache) := q.runIdle budget env cache t
    (.ran report cache, q)
  | .drain => (.drained q.drain.1, q.drain.2)

/-- The actions of a run with their answers, and the queue behind it. -/
def run (q : Queue) : List Action → List (Action × Answer) × Queue
  | [] => ([], q)
  | a :: as =>
    let more := (q.act a).2.run as
    ((a, (q.act a).1) :: more.1, more.2)

/-- The jobs that were queued when they came. -/
def accepted : List (Action × Answer) → List Job
  | [] => []
  | (.enqueue j, .queued true) :: turns => j :: accepted turns
  | _ :: turns => accepted turns

/-- The jobs that an answer hands out: those whose outcomes a run in idle time tells and whose
results it caches, and those that were drained. -/
inductive HandsOut : Action × Answer → List Job → Prop
  | enqueue (j : Job) (accepted : Bool) : HandsOut (.enqueue j, .queued accepted) []
  | runIdle (budget : Budget) (env : Environment) (cache : Cache) (t : Tree) (js : List Job)
      (remaining : Nat) :
      HandsOut (.runIdle budget env cache t,
        .ran ⟨js.map fun j => j.outcome (j.node.compile env) t, remaining⟩
          (js.foldl (fun c j => c.insert j.key (j.node.compile env)) cache)) js
  | drain (js : List Job) : HandsOut (.drain, .drained js) js

end Queue

/-! ## Keys in a set of their own -/

/-- The jobs that wait and the keys that wait. -/
structure KeyedQueue where
  jobs : List Job := []
  keys : Finset String := ∅

namespace KeyedQueue

def enqueue (k : KeyedQueue) (j : Job) : Bool × KeyedQueue :=
  if j.key ∈ k.keys then (false, k) else (true, ⟨k.jobs ++ [j], insert j.key k.keys⟩)

/-- Works jobs off one by one, each with its key. The budget is looked at behind each job. -/
def workOff (budget : Budget) (env : Environment) (t : Tree) :
    List Job → Finset String → Cache → List Outcome × KeyedQueue × Cache
  | [], keys, cache => ([], ⟨[], keys⟩, cache)
  | j :: js, keys, cache =>
    let (o, cache) := j.complete (j.node.compile env) cache t
    match budget with
    | .one => ([o], ⟨js, keys.erase j.key⟩, cache)
    | .all =>
      let (os, k, cache) := workOff .all env t js (keys.erase j.key) cache
      (o :: os, k, cache)

def act (k : KeyedQueue) : Queue.Action → Queue.Answer × KeyedQueue
  | .enqueue j => (.queued (k.enqueue j).1, (k.enqueue j).2)
  | .runIdle budget env cache t =>
    let (outcomes, k, cache) := workOff budget env t k.jobs k.keys cache
    (.ran ⟨outcomes, k.jobs.length⟩ cache, k)
  | .drain => (.drained k.jobs, {})

def run (k : KeyedQueue) :
    List Queue.Action → List (Queue.Action × Queue.Answer) × KeyedQueue
  | [] => ([], k)
  | a :: as =>
    let more := (k.act a).2.run as
    ((a, (k.act a).1) :: more.1, more.2)

end KeyedQueue

/-! ## Working off -/

variable {env : Environment} {t : Tree} {cache : Cache}

theorem Queue.compileEach_eq (js : List Job) : ∀ cache : Cache,
    compileEach env t cache js = (js.map fun j => j.outcome (j.node.compile env) t,
      js.foldl (fun c j => c.insert j.key (j.node.compile env)) cache) := by
  induction js with
  | nil => exact fun _ => rfl
  | cons j js ih =>
    intro cache
    simp only [compileEach, Job.complete, ih, List.map_cons, List.foldl_cons]

theorem applyAll_compileAll (js : List Job) : ∀ cache : Cache,
    applyAll t cache (compileAll env js) = Queue.compileEach env t cache js := by
  induction js with
  | nil => exact fun _ => rfl
  | cons j js ih =>
    intro cache
    rw [compileAll, List.map_cons, applyAll, Queue.compileEach, ← compileAll]
    simp only [ih]

/-- How many jobs of a queue a run in idle time works off. -/
def Budget.count (js : List Job) : Budget → Nat
  | .one => 1
  | .all => js.length

theorem Queue.runIdle_eq (q : Queue) (budget : Budget) : q.runIdle budget env cache t =
    (⟨(q.jobs.take (budget.count q.jobs)).map fun j => j.outcome (j.node.compile env) t,
        (q.jobs.drop (budget.count q.jobs)).length⟩,
      ⟨q.jobs.drop (budget.count q.jobs)⟩,
      (q.jobs.take (budget.count q.jobs)).foldl
        (fun c j => c.insert j.key (j.node.compile env)) cache) := by
  simp only [runIdle, compileEach_eq]
  cases budget <;> rfl

/-! ## The two in step -/

/-- The keys are those of the jobs that wait, which are the jobs of the queue. -/
structure InStep (k : KeyedQueue) (q : Queue) : Prop where
  jobs : k.jobs = q.jobs
  keys : k.keys = (q.jobs.map (·.key)).toFinset
  nodup : (q.jobs.map (·.key)).Nodup

theorem erase_key {j : Job} {js : List Job} (h : j.key ∉ js.map (·.key)) :
    ((j :: js).map (·.key)).toFinset.erase j.key = (js.map (·.key)).toFinset := by
  rw [List.map_cons, List.toFinset_cons, Finset.erase_insert (by rwa [List.mem_toFinset])]

theorem KeyedQueue.workOff_eq (budget : Budget) (js : List Job) : ∀ cache : Cache,
    (js.map (·.key)).Nodup →
    workOff budget env t js (js.map (·.key)).toFinset cache =
      ((js.take (budget.count js)).map fun j => j.outcome (j.node.compile env) t,
        ⟨js.drop (budget.count js), ((js.drop (budget.count js)).map (·.key)).toFinset⟩,
        (js.take (budget.count js)).foldl (fun c j => c.insert j.key (j.node.compile env))
          cache) := by
  induction js with
  | nil => cases budget <;> exact fun _ _ => rfl
  | cons j js ih =>
    intro cache hnodup
    rw [List.map_cons, List.nodup_cons] at hnodup
    cases budget with
    | one =>
      rw [workOff, erase_key hnodup.1]
      rfl
    | all =>
      rw [workOff, Job.complete, erase_key hnodup.1]
      simp only [ih _ hnodup.2]
      simp [Budget.count]

theorem inStep_start : InStep {} {} where
  jobs := rfl
  keys := rfl
  nodup := List.nodup_nil

variable {k : KeyedQueue} {q : Queue}

theorem InStep.mem_keys (h : InStep k q) (key : String) :
    key ∈ k.keys ↔ q.isPending key = true := by
  simp [h.keys, Queue.isPending]

theorem InStep.act (h : InStep k q) (a : Queue.Action) :
    (k.act a).1 = (q.act a).1 ∧ InStep (k.act a).2 (q.act a).2 := by
  cases a with
  | enqueue j =>
    rw [KeyedQueue.act, Queue.act, KeyedQueue.enqueue, Queue.enqueue]
    by_cases hj : j.key ∈ k.keys
    · rw [if_pos hj, if_pos ((h.mem_keys _).1 hj)]
      exact ⟨rfl, h⟩
    · rw [if_neg hj, if_neg fun hp => hj ((h.mem_keys _).2 hp)]
      have hnew : j.key ∉ q.jobs.map (·.key) := by
        rwa [h.keys, List.mem_toFinset] at hj
      refine ⟨rfl, by rw [h.jobs], ?_, ?_⟩
      · ext key
        simp only [h.keys, Finset.mem_insert, List.mem_toFinset, List.map_append, List.mem_append,
          List.map_cons, List.map_nil, List.mem_singleton, or_comm]
      · rw [List.map_append, List.nodup_append_comm]
        exact List.nodup_cons.2 ⟨hnew, h.nodup⟩
  | runIdle budget env cache t =>
    have hdrop : ((q.jobs.drop (budget.count q.jobs)).map (·.key)).Nodup :=
      h.nodup.sublist ((List.drop_sublist _ _).map _)
    rw [KeyedQueue.act, Queue.act, h.jobs, h.keys, KeyedQueue.workOff_eq _ _ _ h.nodup,
      Queue.runIdle_eq]
    exact ⟨rfl, rfl, rfl, hdrop⟩
  | drain =>
    rw [KeyedQueue.act, Queue.act, h.jobs]
    exact ⟨rfl, inStep_start⟩

theorem InStep.run (as : List Queue.Action) : ∀ {k : KeyedQueue} {q : Queue}, InStep k q →
    (k.run as).1 = (q.run as).1 ∧ InStep (k.run as).2 (q.run as).2 := by
  induction as with
  | nil => exact fun h => ⟨rfl, h⟩
  | cons a as ih =>
    intro k q h
    obtain ⟨hanswer, hnext⟩ := h.act a
    obtain ⟨hturns, hlast⟩ := ih hnext
    simp only [KeyedQueue.run, Queue.run, hanswer, hturns]
    exact ⟨trivial, hlast⟩

/-! ## Each job once -/

/-- What waits and what is accepted now is what is handed out now and waits from then on. -/
theorem Queue.handsOut_act (q : Queue) (a : Action) : ∃ js, HandsOut (a, (q.act a).1) js ∧
    q.jobs ++ accepted [(a, (q.act a).1)] = js ++ (q.act a).2.jobs := by
  cases a with
  | enqueue j =>
    refine ⟨[], .enqueue j _, ?_⟩
    rw [act, enqueue]
    split <;> simp [accepted]
  | runIdle budget env cache t =>
    rw [act, runIdle_eq]
    exact ⟨_, .runIdle _ _ _ _ _ _, by simp [accepted]⟩
  | drain => exact ⟨q.jobs, .drain _, by simp [act, drain, accepted]⟩

theorem Queue.accepted_cons (turn : Action × Answer) (turns : List (Action × Answer)) :
    accepted (turn :: turns) = accepted [turn] ++ accepted turns := by
  obtain ⟨a, x⟩ := turn
  cases a with
  | enqueue j =>
    cases x with
    | queued b => cases b <;> rfl
    | ran => rfl
    | drained => rfl
  | runIdle => rfl
  | drain => rfl

theorem Queue.handsOut_run (as : List Action) : ∀ q : Queue, ∃ handed : List (List Job),
    List.Forall₂ HandsOut (q.run as).1 handed ∧
      q.jobs ++ accepted (q.run as).1 = handed.flatten ++ (q.run as).2.jobs := by
  induction as with
  | nil => exact fun q => ⟨[], .nil, by simp [run, accepted]⟩
  | cons a as ih =>
    intro q
    obtain ⟨js, hjs, hnow⟩ := handsOut_act q a
    obtain ⟨handed, hhanded, hlater⟩ := ih (q.act a).2
    refine ⟨js :: handed, .cons hjs hhanded, ?_⟩
    simp only [run]
    rw [accepted_cons, ← List.append_assoc, hnow, List.append_assoc, hlater, List.flatten_cons,
      List.append_assoc]

theorem Queue.enqueue_fst_iff (q : Queue) (j : Job) :
    (q.enqueue j).1 = true ↔ ∀ k ∈ q.jobs, k.key ≠ j.key := by
  rw [enqueue, isPending]
  split
  · rename_i hpending
    simpa using hpending
  · rename_i hnone
    simpa using hnone

/-- In a run from the empty queue no two jobs wait with one key, and the keys that wait, kept in a
set of their own, are those of the waiting jobs. A job is accepted just if its key does not wait.
What was accepted has been handed out once, in that order, or waits. A run in idle time works off a
job if there is one and drops none; with no limit it comes to the same as draining the queue,
compiling all the jobs and then applying the results. -/
theorem Queue.each_job_once :
    (∀ as : List Action,
      let q := (run {} as).2
      let k := (KeyedQueue.run {} as).2
      (KeyedQueue.run {} as).1 = (run {} as).1 ∧ k.jobs = q.jobs ∧
        k.keys = (q.jobs.map (·.key)).toFinset ∧
        (∀ key, q.isPending key = true ↔ key ∈ k.keys) ∧
        (q.jobs.map (·.key)).Nodup ∧
        ∃ handed : List (List Job), List.Forall₂ HandsOut (run {} as).1 handed ∧
          accepted (run {} as).1 = handed.flatten ++ q.jobs) ∧
    (∀ (q : Queue) (j : Job), (q.enqueue j).1 = true ↔ ∀ k ∈ q.jobs, k.key ≠ j.key) ∧
    (∀ (q : Queue) (budget : Budget) (env : Environment) (cache : Cache) (t : Tree),
      let report := (q.runIdle budget env cache t).1
      (q.jobs ≠ [] → report.outcomes ≠ []) ∧
        report.outcomes.length + report.remaining = q.size) ∧
    (∀ (q : Queue) (env : Environment) (cache : Cache) (t : Tree),
      applyAll t cache (compileAll env q.drain.1) =
        ((q.runIdle .all env cache t).1.outcomes, (q.runIdle .all env cache t).2.2)) := by
  refine ⟨?_, enqueue_fst_iff, ?_, ?_⟩
  · intro as q k
    obtain ⟨hturns, hstep⟩ := inStep_start.run as
    obtain ⟨handed, hhanded, haccepted⟩ := handsOut_run as {}
    exact ⟨hturns, hstep.jobs, hstep.keys, fun key => (hstep.mem_keys key).symm, hstep.nodup,
      handed, hhanded, haccepted⟩
  · intro q budget env cache t report
    have hreport : report = (q.runIdle budget env cache t).1 := rfl
    rw [runIdle_eq] at hreport
    rw [hreport]
    refine ⟨?_, ?_⟩
    · intro hjobs
      obtain ⟨j, js, hjs⟩ := List.exists_cons_of_ne_nil hjobs
      cases budget <;> simp [hjs, Budget.count]
    · rw [List.length_map, ← List.length_append, List.take_append_drop]
      rfl
  · intro q env cache t
    rw [applyAll_compileAll, runIdle_eq, compileEach_eq, drain, Budget.count, List.take_length]

end PageEditor
