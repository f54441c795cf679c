import PageEditor.Edit.Session
import PageEditor.Proofs.Component.Caching

/-!
# Settling

Rendering and compiling in turn until nothing waits. Behind the first rendering every component that
is shown by a plan is compiled or waits (`Supplied`), and compiling keeps that, so no later rendering
queues anything: the queue only gets shorter, whatever the clock says, and when it is empty the last
view lacks nothing.
-/
set_option autoImplicit false

namespace PageEditor

/-! ## Views that lack nothing -/

namespace VNode

variable {p : VNode → Bool}

theorem countIn_append (vs ws : List VNode) :
    countIn p (vs ++ ws) = countIn p vs + countIn p ws := by
  induction vs with
  | nil => rw [List.nil_append, countIn, Nat.zero_add]
  | cons v vs ih => rw [List.cons_append, countIn, countIn, ih, Nat.add_assoc]

theorem countIn_eq_zero_append {vs ws : List VNode} (hvs : countIn p vs = 0)
    (hws : countIn p ws = 0) : countIn p (vs ++ ws) = 0 := by
  rw [countIn_append, hvs, hws]

theorem count_element (tag : String) (id : Option String) (attributes styles : OrderedMap String)
    (vs : List VNode) (animation : Option AnimationDescriptor) (key : UInt64) :
    (element tag id attributes styles vs animation key).count isLoading =
      countIn isLoading vs := by
  unfold count
  exact Nat.zero_add _

theorem count_fragment (vs : List VNode) :
    (fragment vs).count isLoading = countIn isLoading vs := by
  unfold count
  exact Nat.zero_add _

theorem count_text (s : String) : (text s).count isLoading = 0 := by
  simp [count, isLoading]

theorem count_animate (d : AnimationDescriptor) (key : UInt64) (v : VNode) :
    (v.animate d key).count isLoading = v.count isLoading := by
  cases v with
  | element => rw [animate, count_element, count_element]
  | _ => rfl

end VNode

open VNode

theorem Props.countIn_textNodes (p : Props) : countIn isLoading p.textNodes = 0 := by
  rw [textNodes]
  cases p.text.filter (· != "") with
  | none => rfl
  | some s => exact congrArg (· + 0) (count_text s)

theorem Descriptor.count_instantiate (d : Descriptor) (p : Props) {vs : List VNode}
    (h : countIn isLoading vs = 0) : (d.instantiate p vs).count isLoading = 0 := by
  have hinner := countIn_eq_zero_append p.countIn_textNodes h
  unfold instantiate
  cases d.construction with
  | icon => exact count_element ..
  | primitive => exact (count_element ..).trans hinner
  | fragment => exact (count_fragment _).trans hinner

namespace Plan

variable {id : String}

mutual

/-- A plan lacks nothing by itself: what it shows lacks what the children lack. -/
theorem count_run : (p : Plan) → {vs : List VNode} → countIn isLoading vs = 0 →
    (p.run id vs).1.count isLoading = 0 ∧ countIn isLoading (p.run id vs).2 = 0
  | primitive tag props inner, vs, h => by
    rw [run]
    exact ⟨(count_element ..).trans (countIn_runAll inner h).1, (countIn_runAll inner h).2⟩
  | component d props inner, vs, h => by
    rw [run]
    exact ⟨d.count_instantiate _ (countIn_runAll inner h).1, (countIn_runAll inner h).2⟩
  | text s, vs, h => by
    rw [run]
    exact ⟨count_text s, h⟩
  | expression s, vs, h => by
    rw [run]
    exact ⟨count_text _, h⟩
  | slot, vs, h => by
    rw [run]
    exact ⟨(count_fragment vs).trans h, rfl⟩

theorem countIn_runAll : (ps : List Plan) → {vs : List VNode} → countIn isLoading vs = 0 →
    countIn isLoading (runAll id vs ps).1 = 0 ∧ countIn isLoading (runAll id vs ps).2 = 0
  | [], vs, h => by
    rw [runAll_nil]
    exact ⟨rfl, h⟩
  | p :: ps, vs, h => by
    by_cases hslot : p = slot
    · have hnil : countIn isLoading [] = 0 := rfl
      obtain ⟨hshown, hleft⟩ := countIn_runAll ps hnil
      rw [hslot, runAll]
      exact ⟨countIn_eq_zero_append h hshown, hleft⟩
    · obtain ⟨hp, hmore⟩ := count_run p h
      obtain ⟨hshown, hleft⟩ := countIn_runAll ps hmore
      rw [runAll]
      · refine ⟨?_, hleft⟩
        show (p.run id vs).1.count isLoading + countIn isLoading (runAll id _ ps).1 = 0
        rw [hp, hshown]
      · exact hslot

end

end Plan

/-! ## Renderings without gaps -/

namespace Resolver

variable {r : Resolver}

theorem count_compiled (s : RenderState) {n : Node} {vs : List VNode}
    (hcached : (r.cache.get? n.cacheKey).isSome = true) (hvs : countIn isLoading vs = 0) :
    (r.compiled s n vs).1.count isLoading = 0 := by
  unfold compiled
  split
  · rename_i plan _
    exact (Plan.count_run plan hvs).1
  · rfl
  · rename_i hnone
    rw [hnone] at hcached
    cases hcached

theorem count_resolve (s : RenderState) {n : Node} {vs : List VNode}
    (hcached : n.isPlanned r.env = true → (r.cache.get? n.cacheKey).isSome = true)
    (hvs : countIn isLoading vs = 0) : (r.resolve s n vs).1.count isLoading = 0 := by
  unfold Node.isPlanned at hcached
  unfold resolve
  cases hc : n.component? with
  | none => rfl
  | some c =>
    cases hd : r.env.direct? c with
    | some d =>
      simp only [hc, hd] at hcached ⊢
      split
      · rename_i hdot
        exact count_compiled s (hcached hdot) hvs
      · exact d.count_instantiate _ hvs
    | none =>
      simp only [hc, hd, bne_iff_ne, ne_eq] at hcached ⊢
      split
      · rfl
      · rename_i hpackage
        exact count_compiled s (hcached hpackage) hvs

theorem count_primitive (n : Node) {vs : List VNode} (hvs : countIn isLoading vs = 0) :
    (n.primitive vs).count isLoading = 0 :=
  (count_element ..).trans (countIn_eq_zero_append (Props.countIn_textNodes _) hvs)

theorem count_animated (previews : Previews) (n : Node) {v : VNode}
    (hv : v.count isLoading = 0) : (n.animated previews v).count isLoading = 0 := by
  unfold Node.animated
  split
  · exact (count_animate ..).trans hv
  · exact hv

mutual

theorem count_node (previews : Previews) (s : RenderState) : (n : Node) →
    (∀ m ∈ n.planned r.env, (r.cache.get? m.cacheKey).isSome = true) →
    (r.node previews s n).1.count isLoading = 0
  | ⟨id, fields, component, origin, children⟩, h => by
    rw [node]
    by_cases htext : fields.type = textType
    · rw [if_pos htext]
      exact count_text _
    by_cases hexpression : fields.type = expressionType
    · rw [if_neg htext, if_pos hexpression]
      exact count_text _
    have hleaf : ¬ (⟨id, fields, component, origin, children⟩ : Node).isLeaf = true := by
      simp [Node.isLeaf, Node.isText, Node.isExpression, Node.type, htext, hexpression]
    rw [Node.planned] at h
    simp only [if_neg hleaf, List.mem_append, or_imp, forall_and] at h
    have hchildren := countIn_nodes previews s children h.1
    simp only [if_neg htext, if_neg hexpression]
    refine count_animated previews _ ?_
    split
    · refine count_resolve _ (fun hplanned => h.2 _ ?_) hchildren
      rw [if_pos hplanned]
      exact List.mem_singleton_self _
    · exact count_primitive _ hchildren

/-- When all plans that are asked for are cached, nothing is shown as loading. -/
theorem countIn_nodes (previews : Previews) (s : RenderState) : (ns : List Node) →
    (∀ m ∈ Node.plannedAll r.env ns, (r.cache.get? m.cacheKey).isSome = true) →
    countIn isLoading (r.nodes previews s ns).1 = 0
  | [], _ => by
    rw [nodes]
    rfl
  | n :: ns, h => by
    rw [Node.plannedAll] at h
    obtain ⟨hn, hns⟩ := List.forall_mem_append.1 h
    rw [nodes]
    show (r.node previews s n).1.count isLoading + countIn isLoading (r.nodes previews _ ns).1 = 0
    rw [count_node previews s n hn, countIn_nodes previews _ ns hns]

end

end Resolver

/-! ## Clocks -/

/-- Compiles jobs in their order until one of them ends when the budget is used up; `elapsed` tells
how much time has passed when each of them ends. -/
def Queue.compileUntil (env : Environment) (t : Tree) (budget : Nat) :
    (Nat → Nat) → Cache → List Job → List Outcome × List Job × Cache
  | _, cache, [] => ([], [], cache)
  | elapsed, cache, j :: js =>
    let (o, cache) := j.complete (j.node.compile env) cache t
    if budget ≤ elapsed 0 then ([o], js, cache)
    else
      let (os, rest, cache) := compileUntil env t budget (fun k => elapsed (k + 1)) cache js
      (o :: os, rest, cache)

/-- A run does some of the jobs in their order, the oldest one at least. -/
theorem Queue.compileUntil_eq (env : Environment) (t : Tree) (budget : Nat) (js : List Job) :
    ∀ (elapsed : Nat → Nat) (cache : Cache), ∃ n, (js ≠ [] → 0 < n) ∧
      compileUntil env t budget elapsed cache js =
        ((compileEach env t cache (js.take n)).1, js.drop n,
          (compileEach env t cache (js.take n)).2) := by
  induction js with
  | nil => exact fun _ _ => ⟨0, fun h => absurd rfl h, by rw [compileUntil]; rfl⟩
  | cons j js ih =>
    intro elapsed cache
    by_cases hspent : budget ≤ elapsed 0
    · exact ⟨1, fun _ => Nat.one_pos, by rw [compileUntil]; exact if_pos hspent⟩
    · obtain ⟨n, _, hrun⟩ := ih (fun k => elapsed (k + 1)) (cache.insert j.key (j.node.compile env))
      refine ⟨n + 1, fun _ => Nat.succ_pos n, ?_⟩
      rw [compileUntil]
      simp only [if_neg hspent, Job.complete, hrun]
      rfl

namespace Session

/-- Compiles components that wait, as long as the budget lasts. -/
def runFor (s : Session) (r : Resolver) (budget : Nat) (elapsed : Nat → Nat) :
    IdleReport × Session × Resolver :=
  match s.mode with
  | .page t =>
    let (outcomes, jobs, cache) := Queue.compileUntil r.env t budget elapsed r.cache s.queue.jobs
    (⟨outcomes, jobs.length⟩, { s with queue := ⟨jobs⟩ }, { r with cache })
  | .verbatim _ => (⟨[], 0⟩, s, r)

/-- The loop that compiles and renders while anything waits, entered with a view, and how many
rounds it makes. Each round has a clock of its own. -/
inductive Settles (budget : Nat) : (Nat → Nat → Nat) → View × Session × Resolver → Nat →
    View × Session × Resolver → Prop
  | settled {clock : Nat → Nat → Nat} {v : View} {s : Session} {r : Resolver}
      (hqueue : s.queue.isEmpty = true) : Settles budget clock (v, s, r) 0 (v, s, r)
  | stuck {clock : Nat → Nat → Nat} {v : View} {s s' : Session} {r r' : Resolver} {n : Nat}
      (hqueue : s.queue.isEmpty = false)
      (hrun : s.runFor r budget (clock 0) = (⟨[], n⟩, s', r')) :
      Settles budget clock (v, s, r) 1 (v, s', r')
  | round {clock : Nat → Nat → Nat} {v : View} {s s' : Session} {r r' : Resolver}
      {report : IdleReport} {n : Nat} {last : View × Session × Resolver}
      (hqueue : s.queue.isEmpty = false)
      (hrun : s.runFor r budget (clock 0) = (report, s', r')) (hdone : report.outcomes ≠ [])
      (hmore : Settles budget (fun i => clock (i + 1))
        ((s'.render r').1, (s'.render r').2, r') n last) :
      Settles budget clock (v, s, r) (n + 1) last

theorem Settles.unique {budget : Nat} {clock : Nat → Nat → Nat}
    {x y z : View × Session × Resolver} {m n : Nat} (hy : Settles budget clock x m y)
    (hz : Settles budget clock x n z) : m = n ∧ y = z := by
  induction hy generalizing n z with
  | settled hqueue =>
    cases hz with
    | settled => exact ⟨rfl, rfl⟩
    | stuck hsome => rw [hqueue] at hsome; cases hsome
    | round hsome => rw [hqueue] at hsome; cases hsome
  | stuck hqueue hrun =>
    cases hz with
    | settled hempty => rw [hqueue] at hempty; cases hempty
    | stuck _ hrun' =>
      rw [hrun] at hrun'
      cases hrun'
      exact ⟨rfl, rfl⟩
    | round _ hrun' hdone =>
      rw [hrun] at hrun'
      cases hrun'
      exact absurd rfl hdone
  | round hqueue hrun hdone _ ih =>
    cases hz with
    | settled hempty => rw [hqueue] at hempty; cases hempty
    | stuck _ hrun' =>
      rw [hrun] at hrun'
      cases hrun'
      exact absurd rfl hdone
    | round _ hrun' _ hmore =>
      rw [hrun] at hrun'
      cases hrun'
      obtain ⟨rfl, rfl⟩ := ih hmore
      exact ⟨rfl, rfl⟩

/-! ## What holds between the rounds -/

variable {s : Session} {r : Resolver} {t : Tree} {v : View}

/-- The view is the one of the page with what is compiled by now, and all that it lacks waits. -/
structure Underway (t : Tree) (v : View) (s : Session) (r : Resolver) : Prop where
  page : s.mode = .page t
  shown : ∃ q, v = (t.render r s.previews q).1
  supplied : Supplied r.cache s.queue (Node.plannedAll r.env t.root.children)

theorem queue_render (hs : s.mode = .page t) (r : Resolver) : (s.render r).2.queue =
    (Node.plannedAll r.env t.root.children).foldl r.demand s.queue := by
  rw [render, hs]
  exact r.queue_nodes s.previews { queue := s.queue } t.root.children

theorem underway_render (hs : s.mode = .page t) (r : Resolver) :
    Underway t (s.render r).1 (s.render r).2 r := by
  refine ⟨?_, ⟨s.queue, ?_⟩, ?_⟩
  · rw [render, hs]
  · rw [render, hs]
  · rw [queue_render hs]
    exact supplied_demandAll r _ s.queue

theorem Underway.count (h : Underway t v s r) (hqueue : s.queue.isEmpty = true) :
    v.count VNode.isLoading = 0 := by
  obtain ⟨q, rfl⟩ := h.shown
  refine r.countIn_nodes s.previews _ t.root.children fun n hn => ?_
  refine (h.supplied n hn).resolve_left ?_
  rw [Queue.isPending, List.isEmpty_iff.1 hqueue]
  exact Bool.false_ne_true

/-- A round does one job at least, and none is added by the rendering behind it. -/
theorem Underway.round (h : Underway t v s r) (hqueue : s.queue.isEmpty = false) (budget : Nat)
    (elapsed : Nat → Nat) : ∃ report s' r',
      s.runFor r budget elapsed = (report, s', r') ∧ report.outcomes ≠ [] ∧
      (s'.render r').2.queue.size < s.queue.size ∧
      Underway t (s'.render r').1 (s'.render r').2 r' := by
  have hjobs : s.queue.jobs ≠ [] := List.isEmpty_eq_false_iff.1 hqueue
  obtain ⟨n, hn, hrun⟩ :=
    Queue.compileUntil_eq r.env t budget s.queue.jobs elapsed r.cache
  have hpositive := hn hjobs
  have hsupplied : Supplied
      (Queue.compileEach r.env t r.cache (s.queue.jobs.take n)).2 ⟨s.queue.jobs.drop n⟩
      (Node.plannedAll r.env t.root.children) := by
    refine Supplied.compileEach t (s.queue.jobs.take n) ?_
    rw [List.take_append_drop]
    exact h.supplied
  rw [runFor, h.page]
  simp only [hrun]
  refine ⟨_, _, _, rfl, ?_, ?_, underway_render rfl _⟩
  · obtain ⟨j, js, hcons⟩ := List.exists_cons_of_ne_nil hjobs
    obtain ⟨n, rfl⟩ := Nat.exists_eq_add_one_of_ne_zero hpositive.ne'
    rw [hcons, List.take_succ_cons]
    exact List.cons_ne_nil _ _
  · rw [queue_render rfl, demandAll_of_supplied hsupplied, Queue.size, Queue.size,
      List.length_drop]
    have := List.length_pos_iff.2 hjobs
    omega

theorem Underway.settles (budget : Nat) : ∀ (size : Nat) (clock : Nat → Nat → Nat) {v : View}
    {s : Session} {r : Resolver}, Underway t v s r → s.queue.size ≤ size →
    ∃ n v' s' r', n ≤ size ∧ Settles budget clock (v, s, r) n (v', s', r') ∧
      s'.queue.isEmpty = true ∧ v'.count VNode.isLoading = 0 := by
  intro size
  induction size with
  | zero =>
    intro clock v s r h hsize
    have hqueue : s.queue.isEmpty = true :=
      List.isEmpty_iff.2 (List.length_eq_zero_iff.1 (Nat.le_zero.1 hsize))
    exact ⟨0, v, s, r, Nat.le_refl 0, .settled hqueue, hqueue, h.count hqueue⟩
  | succ size ih =>
    intro clock v s r h hsize
    cases hqueue : s.queue.isEmpty with
    | true => exact ⟨0, v, s, r, Nat.zero_le _, .settled hqueue, hqueue, h.count hqueue⟩
    | false =>
      obtain ⟨report, s₁, r₁, hrun, hdone, hless, hnext⟩ := h.round hqueue budget (clock 0)
      obtain ⟨n, v', s', r', hn, hmore, hend⟩ :=
        ih (fun i => clock (i + 1)) hnext (Nat.le_of_lt_succ (Nat.lt_of_lt_of_le hless hsize))
      exact ⟨n + 1, v', s', r', Nat.succ_le_succ hn, .round hqueue hrun hdone hmore, hend⟩

/-! ## The loop with a bound -/

/-- The two budgets are a budget of nothing, and one that no clock reaches. -/
theorem exists_runIdle_eq (b : Budget) : ∃ (budget : Nat) (elapsed : Nat → Nat),
    ∀ (s : Session) (r : Resolver), s.runIdle r b = s.runFor r budget elapsed := by
  cases b with
  | one =>
    refine ⟨0, fun _ => 0, fun s r => ?_⟩
    unfold runIdle runFor Queue.runIdle
    cases s.mode with
    | verbatim e => rfl
    | page t =>
      cases hjobs : s.queue.jobs with
      | nil => simp [Queue.compileUntil, Queue.compileEach]
      | cons j js => simp [Queue.compileUntil, Queue.compileEach]
  | all =>
    refine ⟨1, fun _ => 0, fun s r => ?_⟩
    have hall : ∀ (t : Tree) (js : List Job) (cache : Cache),
        Queue.compileUntil r.env t 1 (fun _ => 0) cache js =
          ((Queue.compileEach r.env t cache js).1, [],
            (Queue.compileEach r.env t cache js).2) := by
      intro t js
      induction js with
      | nil => exact fun _ => rfl
      | cons j js ih =>
        intro cache
        rw [Queue.compileUntil]
        simp only [Job.complete, ih]
        rfl
    unfold runIdle runFor Queue.runIdle
    cases s.mode with
    | verbatim e => rfl
    | page t => simp [hall]

theorem Settles.settleWithin {b : Budget} {budget : Nat} {elapsed : Nat → Nat}
    (hrun : ∀ (s : Session) (r : Resolver), s.runIdle r b = s.runFor r budget elapsed)
    {clock : Nat → Nat → Nat} (hclock : ∀ i, clock i = elapsed) {x y : View × Session × Resolver}
    {n : Nat} (h : Settles budget clock x n y) {fuel : Nat} (hfuel : n ≤ fuel) :
    Session.settleWithin b fuel x.1 x.2.1 x.2.2 = y := by
  induction h generalizing fuel with
  | settled hqueue =>
    cases fuel with
    | zero => rfl
    | succ fuel => exact if_pos hqueue
  | stuck hqueue hstuck =>
    obtain ⟨fuel, rfl⟩ := Nat.exists_eq_add_one_of_ne_zero (Nat.ne_of_gt hfuel)
    rw [hclock] at hstuck
    simp only [Session.settleWithin, hqueue, hrun, hstuck]
    rfl
  | round hqueue hround hdone _ ih =>
    obtain ⟨fuel, rfl⟩ := Nat.exists_eq_add_one_of_ne_zero (Nat.ne_zero_of_lt hfuel)
    rw [hclock] at hround
    have hmore := ih (fun i => hclock (i + 1)) (Nat.le_of_succ_le_succ hfuel)
    rw [← List.isEmpty_eq_false_iff] at hdone
    simp only [Session.settleWithin, hqueue, hrun, hround, hdone]
    exact hmore

/-- Whatever waits and whatever is compiled already, for every budget and every clock the loop comes
to its end, in no more rounds than jobs wait behind the first rendering. Then nothing waits, and
nothing is shown as loading. `settle` is this loop with the rounds bounded. -/
theorem settles_settle (hs : s.mode = .page t) (r : Resolver) :
    (∀ (budget : Nat) (clock : Nat → Nat → Nat), ∃ n v' s' r',
      Settles budget clock ((s.render r).1, (s.render r).2, r) n (v', s', r') ∧
      n ≤ (s.render r).2.queue.size ∧ s'.queue.isEmpty = true ∧
      v'.count VNode.isLoading = 0) ∧
    ∀ b : Budget, (s.settle r b).2.1.queue.isEmpty = true ∧
      (s.settle r b).1.count VNode.isLoading = 0 := by
  have hfirst := underway_render hs r
  refine ⟨fun budget clock => ?_, fun b => ?_⟩
  · obtain ⟨n, v', s', r', hn, hloop, hend⟩ :=
      hfirst.settles budget (s.render r).2.queue.size clock (Nat.le_refl _)
    exact ⟨n, v', s', r', hloop, hn, hend⟩
  · obtain ⟨budget, elapsed, hrun⟩ := exists_runIdle_eq b
    obtain ⟨n, v', s', r', hn, hloop, hempty, hcount⟩ :=
      hfirst.settles budget (s.render r).2.queue.size (fun _ => elapsed) (Nat.le_refl _)
    have hsettle : s.settle r b = (v', s', r') := hloop.settleWithin hrun (fun _ => rfl) hn
    rw [hsettle]
    exact ⟨hempty, hcount⟩

/-- A page with a panel, while a job for another panel waits that is there no more. -/
def panelSession : Session where
  source := ""
  mode := .page (Workbench.panelTree [Workbench.greeting])
  queue := ⟨[.ofNode { Workbench.panel [] with id := "gone" }]⟩

theorem settles_settle_panelSession :
    (panelSession.render ⟨.standard, {}⟩).1.count VNode.isLoading = 1 ∧
    (panelSession.render ⟨.standard, {}⟩).2.queue.size = 2 ∧
    (∀ (budget : Nat) (clock : Nat → Nat → Nat), ∃ n v' s' r',
      Settles budget clock ((panelSession.render ⟨.standard, {}⟩).1,
        (panelSession.render ⟨.standard, {}⟩).2, ⟨.standard, {}⟩) n (v', s', r') ∧
      n ≤ 2 ∧ s'.queue.isEmpty = true ∧ v'.count VNode.isLoading = 0) ∧
    ∀ b : Budget, (panelSession.settle ⟨.standard, {}⟩ b).2.1.queue.isEmpty = true ∧
      (panelSession.settle ⟨.standard, {}⟩ b).1.count VNode.isLoading = 0 := by
  obtain ⟨hloop, hsettle⟩ := settles_settle (s := panelSession) rfl ⟨.standard, {}⟩
  have hsize : (panelSession.render ⟨.standard, {}⟩).2.queue.size = 2 := by decide +kernel
  rw [hsize] at hloop
  exact ⟨by decide +kernel, hsize, hloop, hsettle⟩

end Session

end PageEditor
