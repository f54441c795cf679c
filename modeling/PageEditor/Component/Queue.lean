import PageEditor.Component.Cache

/-!
# Queue of components to compile

Rendering never compiles. It queues the component, and the queue is worked off in idle time, one
job at least, or is drained and compiled elsewhere. A result is cached in any case, but counts for
nothing when its node has gone or changed in the meantime.
-/
set_option autoImplicit false

namespace PageEditor

/-! ## Jobs -/

/-- A component as it was when it was queued. -/
structure Job where
  node : Node
  key : String

namespace Job

def ofNode (n : Node) : Job := ⟨n.forget, n.cacheKey⟩

def nodeId (j : Job) : String := j.node.id

end Job

inductive Outcome
  | ready (nodeId : String)
  | failed (nodeId message : String)
  | discarded (nodeId : String)
  deriving DecidableEq, Repr

/-- The node that should be rendered again. -/
def Outcome.affected? : Outcome → Option String
  | ready id => some id
  | failed id _ => some id
  | discarded _ => none

namespace Job

/-- Whether the tree still has the node with the fields that the job was made from. -/
def isCurrent (j : Job) (t : Tree) : Bool := (t.find? j.nodeId).any fun n => n.cacheKey == j.key

/-- What a result means for the tree. -/
def outcome (j : Job) (r : Except CompileError Plan) (t : Tree) : Outcome :=
  if j.isCurrent t then
    match r with
    | .ok _ => .ready j.nodeId
    | .error e => .failed j.nodeId e.message
  else .discarded j.nodeId

/-- Caches a result and says what it means. -/
def complete (j : Job) (r : Except CompileError Plan) (cache : Cache) (t : Tree) : Outcome × Cache :=
  (j.outcome r t, cache.insert j.key r)

end Job

/-! ## The queue -/

/-- Jobs that wait, the oldest one first, no two with one key. -/
structure Queue where
  jobs : List Job := []

/-- How long a run may take: it stops behind the first job, or goes on to the end. -/
inductive Budget
  | one | all
  deriving DecidableEq, Repr

/-- What a run did. -/
structure IdleReport where
  outcomes : List Outcome
  remaining : Nat
  deriving DecidableEq, Repr

def IdleReport.affected (r : IdleReport) : List String := r.outcomes.filterMap Outcome.affected?

namespace Queue

def size (q : Queue) : Nat := q.jobs.length

def isEmpty (q : Queue) : Bool := q.jobs.isEmpty

def isPending (q : Queue) (key : String) : Bool := q.jobs.any (·.key == key)

/-- Queues a job unless one with the same key waits; tells whether it was queued. -/
def enqueue (q : Queue) (j : Job) : Bool × Queue :=
  if q.isPending j.key then (false, q) else (true, ⟨q.jobs ++ [j]⟩)

/-- Hands all jobs out. -/
def drain (q : Queue) : List Job × Queue := (q.jobs, {})

/-- Compiles jobs in their order. -/
def compileEach (env : Environment) (t : Tree) (cache : Cache) : List Job → List Outcome × Cache
  | [] => ([], cache)
  | j :: js =>
    let (o, cache) := j.complete (j.node.compile env) cache t
    let (os, cache) := compileEach env t cache js
    (o :: os, cache)

/-- Works the queue off within the budget. -/
def runIdle (q : Queue) (budget : Budget) (env : Environment) (cache : Cache) (t : Tree) :
    IdleReport × Queue × Cache :=
  let n := match budget with
    | .one => 1
    | .all => q.jobs.length
  let (outcomes, cache) := compileEach env t cache (q.jobs.take n)
  (⟨outcomes, (q.jobs.drop n).length⟩, ⟨q.jobs.drop n⟩, cache)

end Queue

/-! ## Compiling elsewhere -/

/-- The results of drained jobs, in their order. -/
def compileAll (env : Environment) (js : List Job) : List (Job × Except CompileError Plan) :=
  js.map fun j => (j, j.node.compile env)

/-- Applies results to the tree as it is by now. -/
def applyAll (t : Tree) (cache : Cache) :
    List (Job × Except CompileError Plan) → List Outcome × Cache
  | [] => ([], cache)
  | (j, r) :: more =>
    let (o, cache) := j.complete r cache t
    let (os, cache) := applyAll t cache more
    (o :: os, cache)

end PageEditor
