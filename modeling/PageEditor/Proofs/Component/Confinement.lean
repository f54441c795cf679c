import PageEditor.Proofs.Component.Caching
import PageEditor.Proofs.Markup.ReadPages

/-!
# Confinement

What a component can bring into a page. A plan is compiled from a snippet that is put together from
a node's strings as they are, so what is read from it need not be what the node said. Still every
component in a plan is one that the environment grants, and every other element has a tag that needs no
component, since the names in the snippet are looked up again when the plan is made. What a component
is shown as is confined in the same way, whether it is made at once or by a plan out of a cache.
-/
set_option autoImplicit false

namespace PageEditor

variable {env : Environment}

/-! ## Granted components -/

/-- A component of the catalog whose family is builtin or the family of some package. -/
structure Environment.Grants (env : Environment) (d : Descriptor) : Prop where
  entry : ∃ name, env.catalog.find? name = some d
  family : d.family = .builtin ∨ ∃ package, env.packages.family? package = some d.family

namespace Environment

variable {c : ComponentInfo} {d : Descriptor}

/-- A package may provide builtin components if it is none, and else those of its family. -/
theorem family_of_family? {package : String} {family : Family}
    (h : env.family? package = some family) :
    family = .builtin ∨ ∃ p, env.packages.family? p = some family := by
  rw [family?] at h
  split at h
  · cases h
    exact .inl rfl
  · exact .inr ⟨package, h⟩

theorem grants_of_direct? (h : env.direct? c = some d) : env.Grants d := by
  rw [direct?] at h
  split at h
  · cases h
  · obtain ⟨hentry, hfamily⟩ := Option.filter_eq_some_iff.1 h
    exact ⟨⟨_, hentry⟩, family_of_family? (beq_iff_eq.1 hfamily)⟩

theorem grants_of_resolve (h : env.resolve c = .ok d) : env.Grants d := by
  rw [resolve] at h
  split at h
  · cases h
  rename_i family hpackage
  split at h
  · rename_i found hfind
    cases h
    obtain ⟨name, _, hentry⟩ := List.mem_filterMap.1 (List.mem_of_find?_eq_some hfind)
    have hfamily : d.family = family := by simpa using List.find?_some hfind
    exact ⟨⟨name, hentry⟩, hfamily ▸ family_of_family? hpackage⟩
  · cases h

end Environment

/-! ## Plans -/

namespace Plan

mutual

/-- The components in a plan, at any depth. -/
def descriptors : Plan → List Descriptor
  | primitive _ _ inner => descriptorsAll inner
  | component d _ inner => d :: descriptorsAll inner
  | _ => []

def descriptorsAll : List Plan → List Descriptor
  | [] => []
  | p :: ps => p.descriptors ++ descriptorsAll ps

end

mutual

/-- The tags of the elements in a plan that are no components, at any depth. -/
def tags : Plan → List String
  | primitive tag _ inner => tag :: tagsAll inner
  | component _ _ inner => tagsAll inner
  | _ => []

def tagsAll : List Plan → List String
  | [] => []
  | p :: ps => p.tags ++ tagsAll ps

end

/-- All components in a plan are granted, and all other tags need no component. -/
structure Confined (env : Environment) (p : Plan) : Prop where
  descriptors : ∀ d ∈ p.descriptors, env.Grants d
  tags : ∀ tag ∈ p.tags, isHtmlTag tag = true

theorem confined_text (s : String) : Confined env (text s) :=
  ⟨by rintro _ ⟨⟩, by rintro _ ⟨⟩⟩

theorem confined_expression (s : String) : Confined env (expression s) :=
  ⟨by rintro _ ⟨⟩, by rintro _ ⟨⟩⟩

theorem confined_slot : Confined env slot := ⟨by rintro _ ⟨⟩, by rintro _ ⟨⟩⟩

theorem confined_ofLeaf (n : Node) : Confined env (ofLeaf n) := by
  unfold ofLeaf
  split
  · exact confined_text _
  · split
    · exact confined_slot
    · exact confined_expression _

theorem mem_descriptorsAll {d : Descriptor} {ps : List Plan} :
    d ∈ descriptorsAll ps ↔ ∃ p ∈ ps, d ∈ p.descriptors := by
  induction ps with
  | nil => simp [descriptorsAll]
  | cons p ps ih => simp [descriptorsAll, ih]

theorem mem_tagsAll {tag : String} {ps : List Plan} : tag ∈ tagsAll ps ↔ ∃ p ∈ ps, tag ∈ p.tags := by
  induction ps with
  | nil => simp [tagsAll]
  | cons p ps ih => simp [tagsAll, ih]

variable {ps : List Plan}

theorem confined_component {d : Descriptor} (hd : env.Grants d) (props : Props)
    (hps : ∀ p ∈ ps, Confined env p) : Confined env (component d props ps) where
  descriptors e he := by
    rw [Plan.descriptors] at he
    rcases List.mem_cons.1 he with rfl | he
    · exact hd
    · obtain ⟨p, hp, he⟩ := mem_descriptorsAll.1 he
      exact (hps p hp).descriptors e he
  tags tag htag := by
    rw [Plan.tags] at htag
    obtain ⟨p, hp, htag⟩ := mem_tagsAll.1 htag
    exact (hps p hp).tags tag htag

theorem confined_primitive {tag : String} (htag : isHtmlTag tag = true) (props : Props)
    (hps : ∀ p ∈ ps, Confined env p) : Confined env (primitive tag props ps) where
  descriptors d hd := by
    rw [Plan.descriptors] at hd
    obtain ⟨p, hp, hd⟩ := mem_descriptorsAll.1 hd
    exact (hps p hp).descriptors d hd
  tags other hother := by
    rw [Plan.tags] at hother
    rcases List.mem_cons.1 hother with rfl | hother
    · exact htag
    · obtain ⟨p, hp, hother⟩ := mem_tagsAll.1 hother
      exact (hps p hp).tags other hother

theorem confined_around {n : Node} {p : Plan} (hps : ∀ p ∈ ps, Confined env p)
    (h : around env n ps = .ok p) : Confined env p := by
  rw [around] at h
  split at h
  · rename_i c _
    cases hresolve : env.resolve c with
    | error e =>
      rw [hresolve] at h
      cases h
    | ok d =>
      rw [hresolve] at h
      cases h
      exact confined_component (Environment.grants_of_resolve hresolve) _ hps
  · split at h
    · rename_i htag
      cases h
      refine confined_primitive htag _ (List.forall_mem_append.2 ⟨?_, hps⟩)
      intro q hq
      obtain ⟨s, _, rfl⟩ := Option.map_eq_some_iff.1 (Option.mem_toList.1 hq)
      exact confined_text s
    · cases h

theorem ofNode_eq_ok {n : Node} {p : Plan} (hleaf : n.isLeaf = false) (h : ofNode env n = .ok p) :
    ∃ ps, ofNodes env n.children = .ok ps ∧ around env n ps = .ok p := by
  simp only [Node.isLeaf, Node.isText, Node.isExpression, Node.type, Bool.or_eq_false_iff,
    beq_eq_false_iff_ne] at hleaf
  obtain ⟨id, fields, info, origin, children⟩ := n
  rw [ofNode] at h
  simp only [if_neg hleaf.1, if_neg hleaf.2] at h
  split at h
  · cases h
  · rename_i ps hps
    refine ⟨ps, hps, ?_⟩
    rw [around]
    cases hc : (⟨id, fields, info, origin, children⟩ : Node).component? with
    | some c =>
      simp only [hc] at h ⊢
      cases hresolve : env.resolve c <;> simp only [hresolve] at h ⊢ <;> exact h
    | none =>
      simp only [hc] at h ⊢
      exact h

mutual

theorem confined_ofNode : (n : Node) → {p : Plan} → ofNode env n = .ok p → Confined env p
  | ⟨id, fields, info, origin, children⟩, p, h => by
    by_cases hleaf : (⟨id, fields, info, origin, children⟩ : Node).isLeaf = true
    · rw [ofNode_of_isLeaf hleaf] at h
      cases h
      exact confined_ofLeaf _
    · obtain ⟨ps, hps, hp⟩ := ofNode_eq_ok (Bool.eq_false_iff.2 hleaf) h
      exact confined_around (confined_ofNodes children hps) hp

theorem confined_ofNodes : (ns : List Node) → {ps : List Plan} → ofNodes env ns = .ok ps →
    ∀ p ∈ ps, Confined env p
  | [], ps, h => by
    rw [ofNodes] at h
    cases h
    rintro _ ⟨⟩
  | n :: ns, ps, h => by
    rw [ofNodes] at h
    split at h
    · cases h
    rename_i p hp
    split at h
    · cases h
    rename_i qs hqs
    cases h
    exact List.forall_mem_cons.2 ⟨confined_ofNode n hp, confined_ofNodes ns hqs⟩

end

/-! ## What a plan shows -/

/-- Whether a plan is one of an element. -/
def isFrame : Plan → Bool
  | primitive .. => true
  | component .. => true
  | _ => false

theorem isFrame_around {n : Node} {p : Plan} (h : around env n ps = .ok p) : p.isFrame = true := by
  rw [around] at h
  split at h
  · rename_i c _
    cases hresolve : env.resolve c <;> rw [hresolve] at h <;> cases h
    rfl
  · split at h
    · cases h
      rfl
    · cases h

end Plan

/-- The snippet of a component is read as an element first, and that is what its plan is made of. -/
theorem compile_eq_ok {n : Node} {p : Plan} (h : n.compile env = .ok p) :
    p.Confined env ∧ p.isFrame = true := by
  rw [Node.compile] at h
  split at h
  · cases h
  rename_i page hpage
  split at h
  · cases h
  rename_i element more hchildren
  have hleaf := isLeaf_of_read hpage element (by rw [hchildren]; exact List.mem_cons_self)
  obtain ⟨ps, _, haround⟩ := Plan.ofNode_eq_ok hleaf h
  exact ⟨Plan.confined_ofNode element h, Plan.isFrame_around haround⟩

namespace Environment

/-- What a component may be shown as: a sign that it is not there, a group, or an element whose tag
needs no component or is that of a granted one. -/
def Shows (env : Environment) : VNode → Prop
  | .element tag .. => isHtmlTag tag = true ∨ ∃ d, env.Grants d ∧ tag = d.tag
  | .text _ => False
  | .fragment _ | .loading _ | .error _ _ | .unknown _ _ => True

theorem shows_instantiate {d : Descriptor} (hd : env.Grants d) (props : Props)
    (children : List VNode) : env.Shows (d.instantiate props children) := by
  unfold Descriptor.instantiate
  cases d.construction with
  | icon => exact .inr ⟨d, hd, rfl⟩
  | primitive => exact .inr ⟨d, hd, rfl⟩
  | fragment => trivial

theorem shows_execute {p : Plan} (hp : p.Confined env) (hframe : p.isFrame = true) (id : String)
    (children : List VNode) : env.Shows (p.execute id children) := by
  rw [Plan.execute]
  cases p with
  | primitive tag props inner =>
    refine .inl (hp.tags tag ?_)
    rw [Plan.tags]
    exact List.mem_cons_self
  | component d props inner =>
    refine shows_instantiate (hp.descriptors d ?_) _ _
    rw [Plan.descriptors]
    exact List.mem_cons_self
  | text s => cases hframe
  | expression s => cases hframe
  | slot => cases hframe

end Environment

/-! ## Caches -/

/-- A cache that nothing but idle runs in the environment have written into, whatever was queued and
whatever the tree was by then. -/
inductive Cache.FilledIn (env : Environment) : Cache → Prop
  | empty : FilledIn env {}
  | runIdle {cache : Cache} (h : FilledIn env cache) (q : Queue) (budget : Budget) (t : Tree) :
      FilledIn env (q.runIdle budget env cache t).2.2

namespace Cache

/-- Every plan in the cache was compiled in the environment. -/
def Compiled (env : Environment) (cache : Cache) : Prop :=
  ∀ key plan, cache.get? key = some (.ok plan) → ∃ n : Node, n.compile env = .ok plan

theorem Compiled.insert {cache : Cache} (h : cache.Compiled env) (key : String) (n : Node) :
    (cache.insert key (n.compile env)).Compiled env := by
  intro x plan hx
  rw [get?_insert] at hx
  split at hx
  · exact ⟨n, Option.some.inj hx⟩
  · exact h x plan hx

theorem Compiled.compileEach (t : Tree) (js : List Job) : ∀ {cache : Cache}, cache.Compiled env →
    (Queue.compileEach env t cache js).2.Compiled env := by
  induction js with
  | nil => exact fun h => h
  | cons j js ih => exact fun h => ih (h.insert j.key j.node)

theorem FilledIn.compiled {cache : Cache} (h : cache.FilledIn env) : cache.Compiled env := by
  induction h with
  | empty => rintro _ _ ⟨⟩
  | runIdle _ q budget t ih => exact ih.compileEach t _

end Cache

/-! ## Components in a view -/

theorem shows_compiled {r : Resolver} (h : r.cache.Compiled r.env) (s : RenderState) (n : Node)
    (children : List VNode) : r.env.Shows (r.compiled s n children).1 := by
  unfold Resolver.compiled
  split
  · rename_i plan hplan
    obtain ⟨m, hm⟩ := h _ plan hplan
    obtain ⟨hconfined, hframe⟩ := compile_eq_ok hm
    exact Environment.shows_execute hconfined hframe n.id children
  · trivial
  · trivial

theorem shows_resolve {r : Resolver} (h : r.cache.Compiled r.env) (s : RenderState) (n : Node)
    (children : List VNode) : r.env.Shows (r.resolve s n children).1 := by
  unfold Resolver.resolve
  split
  · trivial
  split
  · rename_i d hd
    split
    · exact shows_compiled h s n children
    · exact Environment.shows_instantiate (Environment.grants_of_direct? hd) _ children
  · split
    · trivial
    · exact shows_compiled h s n children

/-- Whatever a node's strings are, its plan is confined to what the environment grants, and so is
what it is shown as by a resolver whose cache was filled in this environment. -/
theorem confined_compile_resolve (env : Environment) (n : Node) :
    (∀ plan, n.compile env = .ok plan →
      (∀ d ∈ plan.descriptors, env.Grants d) ∧ ∀ tag ∈ plan.tags, isHtmlTag tag = true) ∧
    ∀ cache : Cache, cache.FilledIn env → ∀ (s : RenderState) (children : List VNode),
      env.Shows ((⟨env, cache⟩ : Resolver).resolve s n children).1 := by
  refine ⟨fun plan hplan => ?_, fun cache hcache s children => ?_⟩
  · obtain ⟨hconfined, _⟩ := compile_eq_ok hplan
    exact ⟨hconfined.descriptors, hconfined.tags⟩
  · exact shows_resolve (r := ⟨env, cache⟩) hcache.compiled s n children

/-- A component with markup in its type: what is read from its snippet is a card with a bold element
in it, and a paragraph behind the card. -/
def smuggler : Node where
  id := "s"
  fields := { type := "UI.Card><b/></UI.Card><p" }
  component := some ⟨true, "@/components/ui", "Card", .whole⟩

/-- The cache when nothing but this component has been compiled. -/
def smuggled : Cache := (Queue.runIdle ⟨[.ofNode smuggler]⟩ .all .standard {} .empty).2.2

theorem confined_smuggler :
    (∃ plan, smuggler.compile .standard = .ok plan ∧ plan.descriptors.map (·.name) = ["Card"] ∧
      plan.tags = ["b"] ∧ (∀ d ∈ plan.descriptors, Environment.standard.Grants d) ∧
      ∀ tag ∈ plan.tags, isHtmlTag tag = true) ∧
    smuggled.FilledIn .standard ∧ (smuggled.get? smuggler.cacheKey).isSome = true ∧
    Environment.standard.Shows
      ((⟨.standard, smuggled⟩ : Resolver).resolve { queue := {} } smuggler []).1 := by
  obtain ⟨hcompile, hresolve⟩ := confined_compile_resolve .standard smuggler
  have hfilled : smuggled.FilledIn .standard := .runIdle .empty _ .all .empty
  refine ⟨?_, hfilled, ?_, hresolve smuggled hfilled _ _⟩
  · have hread : ((smuggler.compile .standard).toOption.any fun plan =>
        plan.descriptors.map (·.name) == ["Card"] && plan.tags == ["b"]) = true := by
      decide +kernel
    cases hplan : smuggler.compile .standard with
    | error e =>
      rw [hplan] at hread
      cases hread
    | ok plan =>
      rw [hplan] at hread
      obtain ⟨hnames, htags⟩ := Bool.and_eq_true_iff.1 hread
      exact ⟨plan, rfl, beq_iff_eq.1 hnames, beq_iff_eq.1 htags, hcompile plan hplan⟩
  · have hcached : smuggled.get? smuggler.cacheKey =
        some ((Job.ofNode smuggler).node.compile .standard) :=
      (Cache.get?_insert {} _ _ _).trans (if_pos rfl)
    rw [hcached]
    rfl

end PageEditor
