import PageEditor.Proofs.Component.Demand
import PageEditor.Proofs.Component.Snippets

/-!
# Cached plans

What the cache holds after any run of edits, renderings and compilations that began with an empty
queue and an empty cache. Under each key it is the result of the version of a component that was the
first one with this key to be asked for (`Keeps`). Other versions with the key are shown by the same
plan, which is right as long as the first version serves them.
-/
set_option autoImplicit false

namespace PageEditor

/-! ## Runs -/

/-- A tree that is rendered, with what waits to be compiled and what has been compiled. -/
structure Workbench where
  tree : Tree
  queue : Queue := {}
  cache : Cache := {}

/-- What happens to a tree: an edit puts another tree into its place. -/
inductive Activity
  | edit (t : Tree)
  | render (previews : Previews)
  | idle (budget : Budget)

namespace Workbench

def perform (env : Environment) (w : Workbench) : Activity → Workbench
  | .edit t => { w with tree := t }
  | .render previews =>
    { w with queue := (w.tree.render ⟨env, w.cache⟩ previews w.queue).2 }
  | .idle budget =>
    let (_, queue, cache) := w.queue.runIdle budget env w.cache w.tree
    { w with queue, cache }

/-- The workbench behind some activities, the first one first. -/
def run (env : Environment) (w : Workbench) : List Activity → Workbench
  | [] => w
  | a :: as => (w.perform env a).run env as

/-- The components that are asked for a plan while something happens to the tree `t`. -/
def asked (env : Environment) (t : Tree) : List Activity → List Node
  | [] => []
  | .edit t' :: as => asked env t' as
  | .render _ :: as => Node.plannedAll env t.root.children ++ asked env t as
  | .idle _ :: as => asked env t as

end Workbench

/-! ## The invariant -/

/-- What waits and what is cached come from the first version with their keys among those that were
asked for, and no version that was asked for is forgotten. -/
structure Keeps (env : Environment) (ns : List Node) (q : Queue) (cache : Cache) : Prop where
  jobs : ∀ j ∈ q.jobs, cache.get? j.key = none ∧
    ∃ n, ns.find? (·.cacheKey == j.key) = some n ∧ j = .ofNode n
  nodup : (q.jobs.map (·.key)).Nodup
  entries : ∀ key r, cache.get? key = some r →
    ∃ n, ns.find? (·.cacheKey == key) = some n ∧ r = n.compile env
  known : ∀ n ∈ ns, q.isPending n.cacheKey = true ∨ (cache.get? n.cacheKey).isSome = true

variable {env : Environment} {ns : List Node} {q : Queue} {cache : Cache}

theorem keeps_nil : Keeps env [] {} {} where
  jobs := by rintro _ ⟨⟩
  nodup := List.nodup_nil
  entries := by rintro _ _ ⟨⟩
  known := by rintro _ ⟨⟩

theorem find?_append_of_exists {p : Node → Bool} {Q : Node → Prop}
    (h : ∃ n, ns.find? p = some n ∧ Q n) (ms : List Node) :
    ∃ n, (ns ++ ms).find? p = some n ∧ Q n := by
  obtain ⟨n, hn, hQ⟩ := h
  refine ⟨n, ?_, hQ⟩
  rw [List.find?_append, hn]
  rfl

/-- A version with a key that nothing waits for and under which nothing is cached is the first
one. -/
theorem Keeps.find?_new (h : Keeps env ns q cache) {n : Node}
    (hpending : q.isPending n.cacheKey = false) (hcached : cache.get? n.cacheKey = none) :
    (ns ++ [n]).find? (·.cacheKey == n.cacheKey) = some n := by
  have hnew : ns.find? (·.cacheKey == n.cacheKey) = none := by
    rw [List.find?_eq_none]
    intro m hm hkey
    have hknown := h.known m hm
    rw [beq_iff_eq.1 hkey, hpending, hcached] at hknown
    simp at hknown
  rw [List.find?_append, hnew]
  simp

/-- A version with a key that is waited for, or under which something is cached, changes nothing. -/
theorem Keeps.pass (h : Keeps env ns q cache) {n : Node}
    (hn : q.isPending n.cacheKey = true ∨ (cache.get? n.cacheKey).isSome = true) :
    Keeps env (ns ++ [n]) q cache where
  jobs j hj := ⟨(h.jobs j hj).1, find?_append_of_exists (h.jobs j hj).2 _⟩
  nodup := h.nodup
  entries key r hr := find?_append_of_exists (h.entries key r hr) _
  known m hm := by
    rcases List.mem_append.1 hm with hm | hm
    · exact h.known m hm
    · rw [List.mem_singleton.1 hm]
      exact hn

theorem Keeps.queue (h : Keeps env ns q cache) {n : Node} (hpending : q.isPending n.cacheKey = false)
    (hcached : cache.get? n.cacheKey = none) :
    Keeps env (ns ++ [n]) ⟨q.jobs ++ [.ofNode n]⟩ cache where
  jobs j hj := by
    rcases List.mem_append.1 hj with hj | hj
    · exact ⟨(h.jobs j hj).1, find?_append_of_exists (h.jobs j hj).2 _⟩
    · rw [List.mem_singleton.1 hj]
      exact ⟨hcached, n, h.find?_new hpending hcached, rfl⟩
  nodup := by
    rw [List.map_append, List.nodup_append]
    refine ⟨h.nodup, List.nodup_cons.2 ⟨List.not_mem_nil, List.nodup_nil⟩, ?_⟩
    rintro x hx _ hy rfl
    obtain ⟨j, hj, rfl⟩ := List.mem_map.1 hx
    have hkey : j.key = n.cacheKey := List.mem_singleton.1 hy
    rw [Queue.isPending_iff.2 ⟨j, hj, hkey⟩] at hpending
    cases hpending
  entries key r hr := find?_append_of_exists (h.entries key r hr) _
  known m hm := by
    rcases List.mem_append.1 hm with hm | hm
    · refine (h.known m hm).imp_left fun hp => ?_
      obtain ⟨j, hj, hkey⟩ := Queue.isPending_iff.1 hp
      exact Queue.isPending_iff.2 ⟨j, List.mem_append_left _ hj, hkey⟩
    · rw [List.mem_singleton.1 hm]
      exact .inl (Queue.isPending_iff.2 ⟨_, List.mem_append_right _ List.mem_cons_self, rfl⟩)

theorem Keeps.demand (h : Keeps env ns q cache) (n : Node) :
    Keeps env (ns ++ [n]) ((⟨env, cache⟩ : Resolver).demand q n) cache := by
  unfold Resolver.demand
  split
  · rename_i hcached
    exact h.pass (.inr hcached)
  · rename_i hcached
    unfold Queue.enqueue
    split
    · rename_i hpending
      exact h.pass (.inl hpending)
    · rename_i hpending
      exact h.queue (Bool.eq_false_iff.2 hpending) (by simpa using hcached)

theorem Keeps.demandAll (ms : List Node) : ∀ {ns : List Node} {q : Queue}, Keeps env ns q cache →
    Keeps env (ns ++ ms) (ms.foldl (⟨env, cache⟩ : Resolver).demand q) cache := by
  induction ms with
  | nil =>
    intro ns q h
    rwa [List.append_nil]
  | cons m ms ih =>
    intro ns q h
    have hmore := ih (h.demand m)
    rwa [List.append_assoc] at hmore

/-- The oldest job is done: its result is the one of the first version with its key. -/
theorem Keeps.complete {j : Job} {js : List Job} (h : Keeps env ns ⟨j :: js⟩ cache) :
    Keeps env ns ⟨js⟩ (cache.insert j.key (j.node.compile env)) := by
  obtain ⟨_, n, hn, hjob⟩ := h.jobs j List.mem_cons_self
  have hnodup : j.key ∉ js.map (·.key) ∧ (js.map (·.key)).Nodup := List.nodup_cons.1 h.nodup
  refine ⟨fun k hk => ?_, hnodup.2, fun key r hr => ?_, Supplied.complete h.known _⟩
  · obtain ⟨hnone, m, hm, hfirst⟩ := h.jobs k (List.mem_cons_of_mem j hk)
    have hkey : k.key ≠ j.key := fun hsame => hnodup.1 (hsame ▸ List.mem_map_of_mem hk)
    refine ⟨?_, m, hm, hfirst⟩
    rw [Cache.get?_insert, if_neg hkey, hnone]
  · rw [Cache.get?_insert] at hr
    split at hr
    · rename_i hkey
      cases hr
      refine ⟨n, hkey ▸ hn, ?_⟩
      rw [hjob]
      exact n.compile_forget env
    · exact h.entries key r hr

theorem Keeps.compileEach (t : Tree) (js : List Job) {more : List Job} : ∀ {cache : Cache},
    Keeps env ns ⟨js ++ more⟩ cache → Keeps env ns ⟨more⟩ (Queue.compileEach env t cache js).2 := by
  induction js with
  | nil => exact fun h => h
  | cons j js ih => exact fun h => ih h.complete

namespace Workbench

variable {w : Workbench}

theorem keeps_render (h : Keeps env ns w.queue w.cache) (previews : Previews) :
    Keeps env (ns ++ Node.plannedAll env w.tree.root.children)
      (w.perform env (.render previews)).queue w.cache := by
  have hqueue := Resolver.queue_nodes ⟨env, w.cache⟩ previews { queue := w.queue }
    w.tree.root.children
  show Keeps env _ ((⟨env, w.cache⟩ : Resolver).nodes previews { queue := w.queue }
    w.tree.root.children).2.queue w.cache
  rw [hqueue]
  exact h.demandAll _

theorem keeps_idle (h : Keeps env ns w.queue w.cache) (budget : Budget) :
    Keeps env ns (w.perform env (.idle budget)).queue (w.perform env (.idle budget)).cache := by
  have hsplit : ∀ n, Keeps env ns ⟨w.queue.jobs.take n ++ w.queue.jobs.drop n⟩ w.cache := by
    intro n
    rw [List.take_append_drop]
    exact h
  cases budget with
  | one => exact (hsplit 1).compileEach w.tree _
  | all => exact (hsplit w.queue.jobs.length).compileEach w.tree _

theorem keeps_run (as : List Activity) : ∀ {ns : List Node} {w : Workbench},
    Keeps env ns w.queue w.cache →
    Keeps env (ns ++ asked env w.tree as) (w.run env as).queue (w.run env as).cache := by
  induction as with
  | nil =>
    intro ns w h
    rwa [asked, List.append_nil]
  | cons a as ih =>
    intro ns w h
    cases a with
    | edit t => exact ih (w := w.perform env (.edit t)) h
    | render previews =>
      rw [asked, ← List.append_assoc]
      exact ih (w := w.perform env (.render previews)) (keeps_render h previews)
    | idle budget => exact ih (w := w.perform env (.idle budget)) (keeps_idle h budget)

def start (t : Tree) : Workbench := { tree := t }

/-- The children of a component as they are rendered. -/
def live (env : Environment) (w : Workbench) (previews : Previews) (s : RenderState) (n : Node) :
    List VNode :=
  ((⟨env, w.cache⟩ : Resolver).nodes previews s n.children).1

theorem live_eq_nil_iff (previews : Previews) (s : RenderState) (n : Node) :
    w.live env previews s n = [] ↔ n.children = [] := by
  rw [live, ← List.length_eq_zero_iff, Resolver.length_nodes, List.length_eq_zero_iff]

section

variable {t : Tree} {as : List Activity} {n n₀ : Node} {plan : Plan}

/-- What is cached is the result of the first version with the key that was asked for. -/
theorem first_of_cached {key : String} {r : Except CompileError Plan}
    (h : ((start t).run env as).cache.get? key = some r) :
    ∃ n, (asked env t as).find? (·.cacheKey == key) = some n ∧ r = n.compile env :=
  (keeps_run (w := start t) as keeps_nil).entries key r h

/-- When nothing waits, there is a result for all that was asked for. -/
theorem cached_of_asked (hn : n ∈ asked env t as)
    (hqueue : ((start t).run env as).queue.jobs = []) :
    ∃ r, ((start t).run env as).cache.get? n.cacheKey = some r := by
  have hknown := (keeps_run (w := start t) as keeps_nil).known n hn
  rw [Queue.isPending, hqueue] at hknown
  exact Option.isSome_iff_exists.1 (hknown.resolve_left Bool.false_ne_true)

/-- A cached plan shows a component with its live children as a plan would that is compiled from the
component as it is now. The plan was compiled from the version of the component that was the first
one with its key to be asked for. What is asked for here is that this version serves the present one,
and that no two components that are hashed differently have one key. -/
theorem execute_cached
    (hcached : ((start t).run env as).cache.get? n.cacheKey = some (.ok plan))
    (hcollision : ∀ m ∈ asked env t as, m.cacheKey = n.cacheKey → m.keyText = n.keyText)
    (hserves : ∀ m, (asked env t as).find? (·.cacheKey == n.cacheKey) = some m → m.Serves plan n)
    (previews : Previews) (s : RenderState) :
    ∃ fresh, n.compile env = .ok fresh ∧
      plan.execute n.id (((start t).run env as).live env previews s n) =
        fresh.execute n.id (((start t).run env as).live env previews s n) := by
  obtain ⟨m, hfirst, hplan⟩ := first_of_cached hcached
  have hsame := List.find?_some (p := fun m : Node => m.cacheKey == n.cacheKey) hfirst
  have hkey := hcollision m (List.mem_of_find?_eq_some hfirst) (beq_iff_eq.1 hsame)
  obtain ⟨fresh, hfresh, hexecute⟩ :=
    (hserves m hfirst).execute (Node.keyText_eq_iff.1 hkey) hplan.symm
  exact ⟨fresh, hfresh, hexecute _ (live_eq_nil_iff previews s n)⟩

/-- The plan of a legible component is out of date just when it is no icon's, there were no children
when it was asked for first, and there are some now. -/
theorem execute_cached_iff
    (hcached : ((start t).run env as).cache.get? n.cacheKey = some (.ok plan))
    (hfirst : (asked env t as).find? (·.cacheKey == n.cacheKey) = some n₀)
    (hkey : n₀.keyText = n.keyText) (hlegible : n.IsLegible)
    (hanimation₀ : n₀.fields.KeepsAnimation) (hanimation : n.fields.KeepsAnimation)
    (previews : Previews) (s : RenderState) :
    ∃ fresh, n.compile env = .ok fresh ∧
      (plan.execute n.id (((start t).run env as).live env previews s n) =
          fresh.execute n.id (((start t).run env as).live env previews s n) ↔
        plan.IsIcon ∨ (n₀.children = [] → n.children = [])) := by
  obtain ⟨m, hfirst', hplan⟩ := first_of_cached hcached
  obtain rfl := Option.some.inj (hfirst.symm.trans hfirst')
  obtain ⟨fresh, hfresh, hexecute⟩ := hlegible.execute_iff (Node.keyText_eq_iff.1 hkey)
    hanimation₀ hanimation hplan.symm
  exact ⟨fresh, hfresh, hexecute _ (live_eq_nil_iff previews s n)⟩

end

/-! ## A panel -/

def greeting : Node := { id := "t", fields := { type := textType, text := some "hello" } }

def farewell : Node := { id := "u", fields := { type := textType, text := some "good-bye" } }

def panel (children : List Node) : Node where
  id := "c"
  fields := { type := "UI.Card" }
  component := some ⟨true, "@/components/ui", "Card", .whole⟩
  children

def panelTree (children : List Node) : Tree :=
  .around { Node.root with children := [panel children] } (.ofKey Tree.defaultKey)

/-- A panel that is rendered and compiled, and then gets other children. -/
def refilled (children others : List Node) : Workbench :=
  (start (panelTree children)).run .standard
    [.render .empty, .idle .all, .edit (panelTree others)]

theorem sameKey_panel (children others : List Node) : (panel children).SameKey (panel others) :=
  ⟨rfl, rfl, rfl, rfl, rfl, rfl, rfl⟩

theorem isLegible_panel (children : List Node) : (panel children).IsLegible := by
  have hread : ((Cursor.ofText ((panel []).snippetImport ++ ['<'])).prelude.toOption.any
      (·.2.rest == ['<'])) = true := by
    decide +kernel
  obtain ⟨⟨is, d⟩, hprelude, hrest⟩ := (Option.any_eq_true _ _).1 hread
  have himports : (Cursor.ofText ((panel []).snippetImport ++ ['<'])).prelude = .ok (is, d) := by
    cases h : (Cursor.ofText ((panel []).snippetImport ++ ['<'])).prelude with
    | error e =>
      rw [h] at hprelude
      cases hprelude
    | ok p =>
      rw [h] at hprelude
      cases hprelude
      rfl
  have hlegible : (panel []).IsLegible := by
    refine ⟨⟨⟨_, _, rfl, by decide, by decide⟩, .inr .nil, ?_, ?_, ?_⟩, ⟨.inl rfl, ?_⟩, is, d,
      himports, beq_iff_eq.1 hrest⟩
    · rintro _ ⟨⟩
    · rintro _ ⟨⟩
    · rintro _ ⟨⟩
    · rintro _ ⟨⟩
  exact hlegible.of_sameKey (sameKey_panel [] children)

theorem cached_panel (children others : List Node) {plan : Plan}
    (hasked : asked .standard (panelTree children)
      [.render .empty, .idle .all, .edit (panelTree others)] = [panel children])
    (hplan : (panel children).compile .standard = .ok plan) :
    (refilled children others).cache.get? (panel others).cacheKey = some (.ok plan) := by
  have hkey : (panel others).cacheKey = (panel children).cacheKey :=
    congrArg Digest.sha256Text (Node.keyText_eq_iff.2 (sameKey_panel others children))
  have hmem : panel children ∈ asked .standard (panelTree children)
      [.render .empty, .idle .all, .edit (panelTree others)] := by
    rw [hasked]
    exact List.mem_singleton_self _
  obtain ⟨r, hr⟩ := cached_of_asked hmem (List.drop_length ..)
  obtain ⟨m, hfirst, rfl⟩ := first_of_cached hr
  have hm := List.mem_of_find?_eq_some hfirst
  rw [hasked] at hm
  rw [List.mem_singleton.1 hm, hplan] at hr
  rw [refilled, hkey]
  exact hr

/-- The plan of a panel that was compiled with a child serves it with other children. -/
theorem execute_cached_panel : ∃ plan fresh,
    (refilled [greeting] [farewell, greeting]).cache.get? (panel [farewell, greeting]).cacheKey =
      some (.ok plan) ∧
    (panel [farewell, greeting]).compile .standard = .ok fresh ∧
    plan.execute "c" ((refilled [greeting] [farewell, greeting]).live .standard .empty
        { queue := {} } (panel [farewell, greeting])) =
      fresh.execute "c" ((refilled [greeting] [farewell, greeting]).live .standard .empty
        { queue := {} } (panel [farewell, greeting])) := by
  have hasked : asked .standard (panelTree [greeting])
    [.render .empty, .idle .all, .edit (panelTree [farewell, greeting])] = [panel [greeting]] := rfl
  have hok : ((panel [greeting]).compile .standard).isOk = true := by decide +kernel
  obtain ⟨plan, hplan⟩ := isOk_iff.1 hok
  have hcached := cached_panel [greeting] [farewell, greeting] hasked hplan
  have hcollision : ∀ m ∈ [panel [greeting]],
      m.cacheKey = (panel [farewell, greeting]).cacheKey →
      m.keyText = (panel [farewell, greeting]).keyText := by
    intro m hm _
    rw [List.mem_singleton.1 hm]
    exact Node.keyText_eq_iff.2 (sameKey_panel _ _)
  have hserves : ∀ m, [panel [greeting]].find?
      (·.cacheKey == (panel [farewell, greeting]).cacheKey) = some m →
      m.Serves plan (panel [farewell, greeting]) := by
    intro m hm
    rw [List.mem_singleton.1 (List.mem_of_find?_eq_some hm)]
    exact .slotted (isLegible_panel _) (by rintro _ ⟨⟩) (by rintro _ ⟨⟩) (.inr (by rintro ⟨⟩))
  rw [← hasked] at hcollision hserves
  obtain ⟨fresh, hfresh, hexecute⟩ :=
    execute_cached hcached hcollision hserves .empty { queue := {} }
  exact ⟨plan, fresh, hcached, hfresh, hexecute⟩

/-- The panel had no children when its plan was asked for, so it is shown without the one that it
has now. -/
theorem stale_panel : panel [greeting] ∈ (refilled [] [greeting]).tree.root.children ∧
    ∃ plan fresh,
      (refilled [] [greeting]).cache.get? (panel [greeting]).cacheKey = some (.ok plan) ∧
      (panel [greeting]).compile .standard = .ok fresh ∧
      plan.execute "c" ((refilled [] [greeting]).live .standard .empty { queue := {} }
          (panel [greeting])) ≠
        fresh.execute "c" ((refilled [] [greeting]).live .standard .empty { queue := {} }
          (panel [greeting])) := by
  refine ⟨List.mem_singleton_self _, ?_⟩
  have hlive : (refilled [] [greeting]).live .standard .empty { queue := {} } (panel [greeting]) =
      [.text "hello"] := rfl
  have hdiffer : (((panel []).compile .standard).toOption.any fun plan =>
      ((panel [greeting]).compile .standard).toOption.any fun fresh =>
        (plan.execute "c" [.text "hello"]).children.length !=
          (fresh.execute "c" [.text "hello"]).children.length) = true := by
    decide +kernel
  rw [hlive]
  cases hplan : (panel []).compile .standard with
  | error e =>
    rw [hplan] at hdiffer
    cases hdiffer
  | ok plan =>
    cases hfresh : (panel [greeting]).compile .standard with
    | error e =>
      rw [hplan, hfresh] at hdiffer
      cases hdiffer
    | ok fresh =>
      rw [hplan, hfresh] at hdiffer
      refine ⟨plan, fresh, cached_panel [] [greeting] rfl hplan, rfl, fun hsame => ?_⟩
      have hlength : ((plan.execute "c" [.text "hello"]).children.length !=
          (fresh.execute "c" [.text "hello"]).children.length) = true := hdiffer
      rw [hsame, bne_self_eq_false] at hlength
      cases hlength

end Workbench

end PageEditor
