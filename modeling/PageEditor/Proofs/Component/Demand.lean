import PageEditor.View.Render

/-!
# What a rendering asks for

A rendering goes through the nodes and asks for a plan for each component that the environment does
not know directly. That is all it does to the queue: a component is queued when no plan or error is
cached under its key and none is waited for. Behind a rendering each of them is compiled or waits
(`Supplied`), and it stays so while jobs are done.
-/
set_option autoImplicit false

namespace PageEditor

/-! ## Components that need a plan -/

namespace Node

/-- Whether a node is shown by a plan. -/
def isPlanned (env : Environment) (n : Node) : Bool :=
  match n.component? with
  | none => false
  | some c =>
    match env.direct? c with
    | some _ => n.type.toList.contains '.'
    | none => c.package != ""

mutual

/-- The nodes that are shown by plans, in the order in which they are rendered: children first. -/
def planned (env : Environment) : Node → List Node
  | ⟨id, fields, component, origin, children⟩ =>
    let n : Node := ⟨id, fields, component, origin, children⟩
    if n.isLeaf then [] else plannedAll env children ++ (if n.isPlanned env then [n] else [])

def plannedAll (env : Environment) : List Node → List Node
  | [] => []
  | n :: ns => n.planned env ++ plannedAll env ns

end

end Node

/-! ## The queue behind a rendering -/

namespace RenderState

mutual

theorem queue_recordPlan (s : RenderState) : (p : Plan) → (s.recordPlan p).queue = s.queue
  | .component d _ inner => by rw [recordPlan, queue_recordPlans]; rfl
  | .primitive _ _ inner => by rw [recordPlan, queue_recordPlans]
  | .text _ => by rw [recordPlan] <;> simp
  | .expression _ => by rw [recordPlan] <;> simp
  | .slot => by rw [recordPlan] <;> simp

theorem queue_recordPlans (s : RenderState) : (ps : List Plan) →
    (s.recordPlans ps).queue = s.queue
  | [] => by rw [recordPlans]
  | p :: ps => by rw [recordPlans, queue_recordPlans, queue_recordPlan]

end

end RenderState

namespace Resolver

variable (r : Resolver) (previews : Previews)

/-- Queues a component unless something is cached under its key. -/
def demand (q : Queue) (n : Node) : Queue :=
  if (r.cache.get? n.cacheKey).isSome then q else (q.enqueue (.ofNode n)).2

theorem queue_compiled (s : RenderState) (n : Node) (vs : List VNode) :
    (r.compiled s n vs).2.queue = r.demand s.queue n := by
  unfold compiled demand
  cases r.cache.get? n.cacheKey with
  | none => rfl
  | some result =>
    cases result with
    | error e => rfl
    | ok plan => exact s.queue_recordPlan plan

theorem queue_resolve (s : RenderState) (n : Node) (vs : List VNode) :
    (r.resolve s n vs).2.queue = if n.isPlanned r.env then r.demand s.queue n else s.queue := by
  unfold resolve Node.isPlanned
  cases hc : n.component? with
  | none => rfl
  | some c =>
    cases hd : r.env.direct? c with
    | some d =>
      simp only [hd]
      split
      · exact r.queue_compiled s n vs
      · rfl
    | none =>
      simp only [hd, bne_iff_ne, ne_eq, ite_not]
      split
      · rfl
      · exact r.queue_compiled s n vs

theorem isComponent_of_isPlanned {env : Environment} {n : Node} (h : n.isPlanned env = true) :
    n.isComponent = true := by
  unfold Node.isPlanned at h
  rw [Node.isComponent]
  cases hc : n.component? with
  | none => rw [hc] at h; cases h
  | some c => rfl

mutual

theorem queue_node (s : RenderState) : (n : Node) →
    (r.node previews s n).2.queue = (n.planned r.env).foldl r.demand s.queue
  | ⟨id, fields, component, origin, children⟩ => by
    have hall := queue_nodes s children
    rw [node, Node.planned]
    by_cases htext : fields.type = textType
    · have hleaf : (⟨id, fields, component, origin, children⟩ : Node).isLeaf = true := by
        simp [Node.isLeaf, Node.isText, Node.type, htext]
      simp only [if_pos htext, if_pos hleaf]
      rfl
    by_cases hexpression : fields.type = expressionType
    · have hleaf : (⟨id, fields, component, origin, children⟩ : Node).isLeaf = true := by
        simp [Node.isLeaf, Node.isExpression, Node.type, hexpression]
      simp only [if_neg htext, if_pos hexpression, if_pos hleaf]
      rfl
    have hleaf : ¬ (⟨id, fields, component, origin, children⟩ : Node).isLeaf = true := by
      simp [Node.isLeaf, Node.isText, Node.isExpression, Node.type, htext, hexpression]
    simp only [if_neg htext, if_neg hexpression, if_neg hleaf, List.foldl_append, ← hall]
    split
    · rw [queue_resolve]
      split <;> rfl
    · rename_i hcomponent
      rw [if_neg (mt isComponent_of_isPlanned hcomponent)]
      rfl

theorem queue_nodes (s : RenderState) : (ns : List Node) →
    (r.nodes previews s ns).2.queue = (Node.plannedAll r.env ns).foldl r.demand s.queue
  | [] => by rw [nodes, Node.plannedAll]; rfl
  | n :: ns => by
    rw [nodes, Node.plannedAll, List.foldl_append, ← queue_node s n]
    exact queue_nodes _ ns

end

theorem length_nodes (s : RenderState) : (ns : List Node) →
    (r.nodes previews s ns).1.length = ns.length
  | [] => by
    rw [nodes]
    rfl
  | n :: ns => by
    rw [nodes]
    exact congrArg (· + 1) (length_nodes _ ns)

end Resolver

/-! ## Supplies -/

/-- For each of the components, a result is cached under its key or waited for. -/
def Supplied (cache : Cache) (q : Queue) (ns : List Node) : Prop :=
  ∀ n ∈ ns, q.isPending n.cacheKey = true ∨ (cache.get? n.cacheKey).isSome = true

section

variable {cache : Cache} {q : Queue} {n : Node} {ns : List Node}

theorem Cache.get?_insert (c : Cache) (key x : String) (r : Except CompileError Plan) :
    (c.insert key r).get? x = if x = key then some r else c.get? x :=
  OrderedMap.get?_insert c.entries key x r

theorem Queue.isPending_iff {key : String} : q.isPending key = true ↔ ∃ j ∈ q.jobs, j.key = key := by
  simp [isPending]

theorem Queue.isPending_append (js ks : List Job) (key : String) :
    Queue.isPending ⟨js ++ ks⟩ key = (Queue.isPending ⟨js⟩ key || Queue.isPending ⟨ks⟩ key) :=
  List.any_append

theorem isPending_demand {r : Resolver} {key : String} (h : q.isPending key = true) :
    (r.demand q n).isPending key = true := by
  unfold Resolver.demand
  split
  · exact h
  · unfold Queue.enqueue
    split
    · exact h
    · rw [Queue.isPending_append, h, Bool.true_or]

theorem isPending_demandAll {r : Resolver} {key : String} (ns : List Node) : ∀ {q : Queue},
    q.isPending key = true → (ns.foldl r.demand q).isPending key = true := by
  induction ns with
  | nil => exact fun h => h
  | cons n ns ih => exact fun h => ih (isPending_demand h)

theorem known_demand (r : Resolver) (q : Queue) (n : Node) :
    (r.demand q n).isPending n.cacheKey = true ∨ (r.cache.get? n.cacheKey).isSome = true := by
  unfold Resolver.demand
  split
  · rename_i hcached
    exact .inr hcached
  · unfold Queue.enqueue
    split
    · rename_i hpending
      exact .inl hpending
    · refine .inl ?_
      rw [Queue.isPending_append]
      simp [Queue.isPending, Job.ofNode]

theorem supplied_demandAll (r : Resolver) (ns : List Node) (q : Queue) :
    Supplied r.cache (ns.foldl r.demand q) ns := by
  induction ns generalizing q with
  | nil => rintro _ ⟨⟩
  | cons n ns ih =>
    refine List.forall_mem_cons.2 ⟨?_, ih _⟩
    exact (known_demand r q n).imp_left (isPending_demandAll ns)

theorem demandAll_of_supplied {r : Resolver} (h : Supplied r.cache q ns) :
    ns.foldl r.demand q = q := by
  induction ns with
  | nil => rfl
  | cons n ns ih =>
    obtain ⟨hn, hns⟩ := List.forall_mem_cons.1 h
    have hdemand : r.demand q n = q := by
      unfold Resolver.demand
      split
      · rfl
      · rename_i hcached
        exact congrArg Prod.snd (if_pos (hn.resolve_right hcached))
    rw [List.foldl_cons, hdemand]
    exact ih hns

theorem Supplied.complete {j : Job} {js : List Job} (h : Supplied cache ⟨j :: js⟩ ns)
    (result : Except CompileError Plan) : Supplied (cache.insert j.key result) ⟨js⟩ ns := by
  intro n hn
  rw [Cache.get?_insert]
  by_cases hkey : n.cacheKey = j.key
  · exact .inr (by rw [if_pos hkey]; rfl)
  · rw [if_neg hkey]
    refine (h n hn).imp_left fun hpending => ?_
    obtain ⟨k, hk, hsame⟩ := Queue.isPending_iff.1 hpending
    rcases List.mem_cons.1 hk with rfl | hk
    · exact absurd hsame.symm hkey
    · exact Queue.isPending_iff.2 ⟨k, hk, hsame⟩

theorem Supplied.compileEach {env : Environment} (t : Tree) (js : List Job) {more : List Job} : ∀ {cache : Cache},
    Supplied cache ⟨js ++ more⟩ ns → Supplied (Queue.compileEach env t cache js).2 ⟨more⟩ ns := by
  induction js with
  | nil => exact fun h => h
  | cons j js ih => exact fun h => ih (h.complete _)

end

end PageEditor
