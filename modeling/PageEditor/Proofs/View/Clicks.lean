import PageEditor.Proofs.Component.Plans
import PageEditor.Proofs.Tree.Leaves
import PageEditor.View.Render

/-!
# Clicks

What is clicked in a view is looked up by the id it was given. A component is shown as one view node
that stands for it, or for nothing, around what its children are shown as, which comes once and in its
order or not at all. So the ids of a view are ids of elements in the order of the tree, none of them
twice, and the view node that is found under an id is what the node of that id is shown as.
-/
set_option autoImplicit false

namespace PageEditor

/-! ## Ids in views -/

namespace VNode

variable {id x : String} {vs ws : List VNode}

theorem nodeIds_eq (v : VNode) : v.nodeIds = v.nodeId?.toList ++ nodeIdsIn v.children := by
  cases v <;> simp [nodeIds, nodeIdsIn, children]

theorem find?_eq (id : String) (v : VNode) :
    v.find? id = if v.nodeId? = some id then some v else findIn? id v.children := by
  cases v <;> simp [find?, findIn?, children]

theorem nodeIdsIn_append (vs ws : List VNode) :
    nodeIdsIn (vs ++ ws) = nodeIdsIn vs ++ nodeIdsIn ws := by
  induction vs with
  | nil => rfl
  | cons v vs ih => rw [List.cons_append, nodeIdsIn, nodeIdsIn, ih, List.append_assoc]

theorem findIn?_append (id : String) (vs ws : List VNode) :
    findIn? id (vs ++ ws) = (findIn? id vs).or (findIn? id ws) := by
  induction vs with
  | nil => rfl
  | cons v vs ih => rw [List.cons_append, findIn?, findIn?, ih, Option.or_assoc]

mutual

theorem find?_of_notMem : (v : VNode) → id ∉ v.nodeIds → v.find? id = none
  | element tag own attributes styles cs animation key, h => by
    rw [nodeIds_eq, List.mem_append, not_or] at h
    have hown : (element tag own attributes styles cs animation key).nodeId? ≠ some id := fun hid =>
      h.1 (by rw [hid]; exact List.mem_singleton_self id)
    rw [find?_eq, if_neg hown]
    exact findIn?_of_notMem cs h.2
  | fragment cs, h => by
    rw [nodeIds_eq, List.mem_append, not_or] at h
    rw [find?_eq, if_neg (by rintro ⟨⟩)]
    exact findIn?_of_notMem cs h.2
  | text s, _ => by
    rw [find?_eq, if_neg (by rintro ⟨⟩)]
    rfl
  | loading own, h => by
    rw [find?_eq, if_neg (by rintro ⟨⟩; exact h List.mem_cons_self)]
    rfl
  | error own message, h => by
    rw [find?_eq, if_neg (by rintro ⟨⟩; exact h List.mem_cons_self)]
    rfl
  | unknown own name, h => by
    rw [find?_eq, if_neg (by rintro ⟨⟩; exact h List.mem_cons_self)]
    rfl

theorem findIn?_of_notMem : (vs : List VNode) → id ∉ nodeIdsIn vs → findIn? id vs = none
  | [], _ => rfl
  | v :: vs, h => by
    rw [nodeIdsIn, List.mem_append, not_or] at h
    rw [findIn?, find?_of_notMem v h.1, findIn?_of_notMem vs h.2]
    rfl

end

/-! ## What is shown around children -/

/-- In `ws` there is all of `vs` that stands for nodes and nothing else, or nothing at all. -/
def Carries (vs ws : List VNode) : Prop :=
  nodeIdsIn ws = [] ∨ nodeIdsIn ws = nodeIdsIn vs ∧ ∀ x, findIn? x ws = findIn? x vs

theorem carries_self (vs : List VNode) : Carries vs vs := .inr ⟨rfl, fun _ => rfl⟩

theorem findIn?_of_nodeIdsIn (h : nodeIdsIn vs = []) (x : String) : findIn? x vs = none := by
  refine findIn?_of_notMem vs ?_
  rw [h]
  exact List.not_mem_nil

theorem Carries.behind {front : List VNode} (h : Carries vs ws) (hfront : nodeIdsIn front = []) :
    Carries vs (front ++ ws) := by
  rw [Carries, nodeIdsIn_append, hfront, List.nil_append]
  refine h.imp_right fun ⟨hids, hfind⟩ => ⟨hids, fun x => ?_⟩
  rw [findIn?_append, findIn?_of_nodeIdsIn hfront, Option.none_or, hfind]

theorem Carries.before {back : List VNode} (h : Carries vs ws) (hback : nodeIdsIn back = []) :
    Carries vs (ws ++ back) := by
  rw [Carries, nodeIdsIn_append, hback, List.append_nil]
  refine h.imp_right fun ⟨hids, hfind⟩ => ⟨hids, fun x => ?_⟩
  rw [findIn?_append, findIn?_of_nodeIdsIn hback, Option.or_none, hfind]

/-- A view node that stands for a node or for nothing, around what the node's children are shown as. -/
structure Wraps (id : String) (vs : List VNode) (v : VNode) : Prop where
  own : ∀ x, v.nodeId? = some x → x = id
  inner : Carries vs v.children

theorem wraps_bare {v : VNode} (hown : v.nodeId? = some id) (hinner : v.children = []) :
    Wraps id vs v :=
  ⟨fun _ hx => Option.some.inj (hx.symm.trans hown), .inl (by rw [hinner]; rfl)⟩

theorem Wraps.nodeIds_sublist {v : VNode} (h : Wraps id vs v) :
    v.nodeIds.Sublist (id :: nodeIdsIn vs) := by
  have hown : v.nodeId?.toList.Sublist [id] := by
    cases hv : v.nodeId? with
    | none => exact List.nil_sublist _
    | some x => exact h.own x hv ▸ List.Sublist.refl _
  have hinner : (nodeIdsIn v.children).Sublist (nodeIdsIn vs) := by
    rcases h.inner with hnone | ⟨hsame, -⟩
    · rw [hnone]
      exact List.nil_sublist _
    · exact hsame ▸ List.Sublist.refl _
  rw [nodeIds_eq]
  exact hown.append hinner

theorem Wraps.find?_of_mem {v : VNode} (h : Wraps id vs v) (hx : x ∈ v.nodeIds) :
    x = id ∧ v.find? x = some v ∨ x ∈ nodeIdsIn vs ∧ v.find? x = findIn? x vs := by
  rw [find?_eq]
  by_cases hown : v.nodeId? = some x
  · exact .inl ⟨h.own x hown, if_pos hown⟩
  · rw [if_neg hown]
    have hmem : x ∈ nodeIdsIn v.children := by
      rw [nodeIds_eq, List.mem_append] at hx
      refine hx.resolve_left fun hself => ?_
      exact hown (Option.mem_toList.1 hself)
    rcases h.inner with hnone | ⟨hsame, hfind⟩
    · rw [hnone] at hmem
      cases hmem
    · exact .inr ⟨hsame ▸ hmem, hfind x⟩

theorem nodeIds_animate (d : AnimationDescriptor) (key : UInt64) (v : VNode) :
    (v.animate d key).nodeIds = v.nodeIds := by
  rw [nodeIds_eq, nodeIds_eq]
  cases v <;> rfl

theorem Wraps.animate {v : VNode} (h : Wraps id vs v) (d : AnimationDescriptor) (key : UInt64) :
    Wraps id vs (v.animate d key) := by
  cases v <;> exact ⟨h.own, h.inner⟩

end VNode

open VNode (Carries Wraps nodeIdsIn findIn?)

/-! ## Components -/

variable {id : String} {vs ws : List VNode}

theorem Props.nodeIdsIn_textNodes (p : Props) : nodeIdsIn p.textNodes = [] := by
  rw [textNodes]
  cases p.text.filter (· != "") <;> rfl

theorem Descriptor.wraps_instantiate (d : Descriptor) (p : Props) (h : Carries vs ws) :
    Wraps p.nodeId vs (d.instantiate p ws) := by
  unfold instantiate
  cases d.construction with
  | icon => exact VNode.wraps_bare rfl rfl
  | primitive => exact ⟨fun _ hx => (Option.some.inj hx).symm, h.behind p.nodeIdsIn_textNodes⟩
  | fragment => exact ⟨by rintro _ ⟨⟩, h.behind p.nodeIdsIn_textNodes⟩

theorem Node.wraps_primitive (n : Node) (vs : List VNode) : Wraps n.id vs (n.primitive vs) :=
  ⟨fun _ hx => (Option.some.inj hx).symm, (VNode.carries_self vs).behind (Props.nodeIdsIn_textNodes _)⟩

theorem Node.wraps_animated {n : Node} (previews : Previews) {v : VNode} (h : Wraps n.id vs v) :
    Wraps n.id vs (n.animated previews v) := by
  unfold animated
  split
  · exact h.animate _ _
  · exact h

theorem Node.nodeIds_animated (previews : Previews) (n : Node) (v : VNode) :
    (n.animated previews v).nodeIds = v.nodeIds := by
  unfold animated
  split
  · exact VNode.nodeIds_animate _ _ v
  · rfl

theorem Node.nodeIds_primitive (n : Node) (vs : List VNode) :
    (n.primitive vs).nodeIds = n.id :: nodeIdsIn vs := by
  rw [VNode.nodeIds_eq]
  show n.id :: nodeIdsIn ((Props.ofNode n).textNodes ++ vs) = _
  rw [VNode.nodeIdsIn_append, Props.nodeIdsIn_textNodes, List.nil_append]

/-! ## Plans -/

namespace Plan

/-- A text, an expression or the place of the children. -/
def isInline : Plan → Bool
  | text _ => true
  | expression _ => true
  | slot => true
  | _ => false

/-- One element, with nothing but texts, expressions and places of the children in it. -/
def IsSingle : Plan → Prop
  | primitive _ _ inner => ∀ p ∈ inner, p.isInline = true
  | component _ _ inner => ∀ p ∈ inner, p.isInline = true
  | _ => False

/-- The first slot takes the children, and there is nothing left for the other ones. -/
theorem carries_runAll (id : String) {ps : List Plan} (h : ∀ p ∈ ps, p.isInline = true) :
    ∀ vs : List VNode, Carries vs (runAll id vs ps).1 := by
  induction ps with
  | nil =>
    intro vs
    rw [runAll_nil]
    exact .inl rfl
  | cons p ps ih =>
    intro vs
    obtain ⟨hp, hps⟩ := List.forall_mem_cons.1 h
    cases p with
    | text s =>
      have hshown : Carries vs ([.text s] ++ (runAll id vs ps).1) := (ih hps vs).behind rfl
      rwa [runAll_text]
    | expression e =>
      have hshown : Carries vs ([shown e] ++ (runAll id vs ps).1) := (ih hps vs).behind rfl
      rwa [runAll_expression]
    | slot =>
      have hrest : nodeIdsIn (runAll id [] ps).1 = [] := by
        rcases ih hps [] with hnone | ⟨hsame, -⟩
        · exact hnone
        · exact hsame
      rw [runAll]
      exact (VNode.carries_self vs).before hrest
    | primitive => cases hp
    | component => cases hp

theorem wraps_execute {p : Plan} (hp : p.IsSingle) (id : String) (vs : List VNode) :
    Wraps id vs (p.execute id vs) := by
  cases p with
  | primitive tag props inner =>
    rw [execute, run]
    exact ⟨fun _ hx => (Option.some.inj hx).symm, carries_runAll id hp vs⟩
  | component d props inner =>
    rw [execute, run]
    exact d.wraps_instantiate { props with nodeId := id } (carries_runAll id hp vs)
  | text => cases hp
  | expression => cases hp
  | slot => cases hp

end Plan

/-- Every plan in the cache is one element with texts, expressions and places of the children. -/
def Cache.IsSingle (cache : Cache) : Prop := ∀ key plan, cache.get? key = some (.ok plan) → plan.IsSingle

/-! ## Nodes -/

namespace Resolver

variable {r : Resolver} {previews : Previews}

theorem compiled_fst (r : Resolver) (s s' : RenderState) (n : Node) (vs : List VNode) :
    (r.compiled s n vs).1 = (r.compiled s' n vs).1 := by
  unfold compiled
  split <;> rfl

theorem resolve_fst (r : Resolver) (s s' : RenderState) (n : Node) (vs : List VNode) :
    (r.resolve s n vs).1 = (r.resolve s' n vs).1 := by
  unfold resolve
  split
  · rfl
  · split
    · split
      · exact r.compiled_fst s s' n vs
      · rfl
    · split
      · rfl
      · exact r.compiled_fst s s' n vs

theorem wraps_resolve (hcache : r.cache.IsSingle) (s : RenderState) (n : Node) (vs : List VNode) :
    Wraps n.id vs (r.resolve s n vs).1 := by
  have hcompiled : Wraps n.id vs (r.compiled s n vs).1 := by
    unfold compiled
    split
    · rename_i plan hplan
      exact Plan.wraps_execute (hcache _ plan hplan) n.id vs
    · exact VNode.wraps_bare rfl rfl
    · exact VNode.wraps_bare rfl rfl
  unfold resolve
  split
  · exact VNode.wraps_bare rfl rfl
  · split
    · split
      · exact hcompiled
      · exact Descriptor.wraps_instantiate _ (.ofNode n) (VNode.carries_self vs)
    · split
      · exact VNode.wraps_bare rfl rfl
      · exact hcompiled

theorem node_of_isLeaf (r : Resolver) (previews : Previews) {n : Node} (h : n.isLeaf = true) :
    ∃ content, ∀ s, (r.node previews s n).1 = .text content := by
  obtain ⟨id, fields, component, origin, children⟩ := n
  by_cases htext : fields.type = textType
  · exact ⟨_, fun s => by rw [node, if_pos htext]⟩
  · have hexpression : fields.type = expressionType := by
      simpa [Node.isLeaf, Node.isText, Node.isExpression, Node.type, htext] using h
    refine ⟨Value.braced (fields.text.getD "").toList, fun s => ?_⟩
    rw [node, if_neg htext, if_pos hexpression]
    rfl

theorem node_of_not_isLeaf (s : RenderState) {n : Node} (h : n.isLeaf = false) :
    (r.node previews s n).1 = n.animated previews
      (if n.isComponent then
        (r.resolve (r.nodes previews s n.children).2 n (r.nodes previews s n.children).1).1
      else n.primitive (r.nodes previews s n.children).1) := by
  obtain ⟨id, fields, component, origin, children⟩ := n
  obtain ⟨htext, hexpression⟩ : fields.type ≠ textType ∧ fields.type ≠ expressionType := by
    simpa [Node.isLeaf, Node.isText, Node.isExpression, Node.type] using h
  rw [node, if_neg htext, if_neg hexpression]
  simp only
  split <;> rfl

mutual

theorem node_fst (s s' : RenderState) : (n : Node) →
    (r.node previews s n).1 = (r.node previews s' n).1
  | ⟨id, fields, component, origin, children⟩ => by
    cases hleaf : (⟨id, fields, component, origin, children⟩ : Node).isLeaf with
    | true =>
      obtain ⟨content, hcontent⟩ := r.node_of_isLeaf previews hleaf
      rw [hcontent s, hcontent s']
    | false =>
      rw [node_of_not_isLeaf s hleaf, node_of_not_isLeaf s' hleaf, nodes_fst s s' children,
        r.resolve_fst (r.nodes previews s children).2 (r.nodes previews s' children).2]

theorem nodes_fst (s s' : RenderState) : (ns : List Node) →
    (r.nodes previews s ns).1 = (r.nodes previews s' ns).1
  | [] => by
    rw [nodes, nodes]
  | n :: ns => by
    rw [nodes, nodes]
    show (r.node previews s n).1 :: (r.nodes previews _ ns).1 =
      (r.node previews s' n).1 :: (r.nodes previews _ ns).1
    rw [node_fst s s' n, nodes_fst _ (r.node previews s' n).2 ns]

end

theorem wraps_node (hcache : r.cache.IsSingle) (previews : Previews) (s : RenderState) {n : Node} (h : n.isLeaf = false) :
    Wraps n.id (r.nodes previews s n.children).1 (r.node previews s n).1 := by
  rw [node_of_not_isLeaf s h]
  refine Node.wraps_animated previews ?_
  split
  · exact wraps_resolve hcache _ n _
  · exact n.wraps_primitive _

theorem nodeIds_of_isLeaf (s : RenderState) {n : Node} (h : n.isLeaf = true) :
    (r.node previews s n).1.nodeIds = [] := by
  obtain ⟨content, hcontent⟩ := r.node_of_isLeaf previews h
  rw [hcontent s]
  rfl

/-! ## Order -/

open Node (idsAll nodesAll)

theorem nodes_cons (r : Resolver) (previews : Previews) (s : RenderState) (n : Node)
    (ns : List Node) :
    ∃ s', (r.nodes previews s (n :: ns)).1 =
      (r.node previews s n).1 :: (r.nodes previews s' ns).1 :=
  ⟨_, by rw [nodes]⟩

mutual

/-- The ids in a view come in the order of the tree. -/
theorem nodeIds_sublist (hcache : r.cache.IsSingle) (s : RenderState) : (n : Node) →
    ((r.node previews s n).1.nodeIds).Sublist n.ids
  | ⟨id, fields, component, origin, children⟩ => by
    cases hleaf : (⟨id, fields, component, origin, children⟩ : Node).isLeaf with
    | true =>
      rw [nodeIds_of_isLeaf s hleaf]
      exact List.nil_sublist _
    | false =>
      have hwraps := wraps_node hcache previews s hleaf
      exact hwraps.nodeIds_sublist.trans ((nodeIdsIn_sublist hcache s children).cons_cons id)

theorem nodeIdsIn_sublist (hcache : r.cache.IsSingle) (s : RenderState) : (ns : List Node) →
    (nodeIdsIn (r.nodes previews s ns).1).Sublist (idsAll ns)
  | [] => by
    rw [nodes]
    exact List.Sublist.refl _
  | n :: ns => by
    obtain ⟨s', hs'⟩ := r.nodes_cons previews s n ns
    rw [hs', nodeIdsIn, idsAll]
    exact (nodeIds_sublist hcache s n).append (nodeIdsIn_sublist hcache s' ns)

end

/-! ## Looking up -/

mutual

/-- What is found under an id is what some element of that id is shown as. -/
theorem find?_node (hcache : r.cache.IsSingle) (s : RenderState) : (n : Node) →
    id ∈ (r.node previews s n).1.nodeIds →
    ∃ m ∈ n.nodes, m.id = id ∧ m.isLeaf = false ∧
      ∀ s', (r.node previews s n).1.find? id = some (r.node previews s' m).1
  | ⟨own, fields, component, origin, children⟩, hid => by
    cases hleaf : (⟨own, fields, component, origin, children⟩ : Node).isLeaf with
    | true =>
      rw [nodeIds_of_isLeaf s hleaf] at hid
      cases hid
    | false =>
      have hwraps := wraps_node hcache previews s hleaf
      rcases hwraps.find?_of_mem hid with ⟨hself, hfind⟩ | ⟨hmem, hfind⟩
      · refine ⟨_, Node.mem_nodes_self _, hself.symm, hleaf, fun s' => ?_⟩
        rw [hfind, node_fst s s']
      · obtain ⟨m, hm, hmid, hmleaf, hfound⟩ := findIn?_nodes hcache s children hmem
        exact ⟨m, Node.mem_nodes_of_below hm, hmid, hmleaf, fun s' => hfind.trans (hfound s')⟩

theorem findIn?_nodes (hcache : r.cache.IsSingle) (s : RenderState) : (ns : List Node) →
    id ∈ nodeIdsIn (r.nodes previews s ns).1 →
    ∃ m ∈ nodesAll ns, m.id = id ∧ m.isLeaf = false ∧
      ∀ s', findIn? id (r.nodes previews s ns).1 = some (r.node previews s' m).1
  | [], hid => by
    rw [nodes] at hid
    cases hid
  | n :: ns, hid => by
    obtain ⟨s₁, hs₁⟩ := r.nodes_cons previews s n ns
    rw [hs₁, nodeIdsIn, List.mem_append] at hid
    rw [hs₁, findIn?, nodesAll]
    by_cases hn : id ∈ (r.node previews s n).1.nodeIds
    · obtain ⟨m, hm, hmid, hmleaf, hfound⟩ := find?_node hcache s n hn
      refine ⟨m, List.mem_append_left _ hm, hmid, hmleaf, fun s' => ?_⟩
      rw [hfound s', Option.some_or]
    · obtain ⟨m, hm, hmid, hmleaf, hfound⟩ := findIn?_nodes hcache s₁ ns (hid.resolve_left hn)
      refine ⟨m, List.mem_append_right _ hm, hmid, hmleaf, fun s' => ?_⟩
      rw [VNode.find?_of_notMem _ hn, Option.none_or, hfound s']

end

/-! ## Trees without components -/

mutual

theorem mem_nodeIds_node (s : RenderState) : (n : Node) → n.Leafy →
    (∀ m ∈ n.nodes, m.isComponent = false) →
    ∀ m ∈ n.nodes, m.isLeaf = false → m.id ∈ (r.node previews s n).1.nodeIds
  | ⟨own, fields, component, origin, children⟩, hleafy, hplain, m, hm, hmleaf => by
    obtain ⟨hempty, hbelow⟩ := Node.leafy_iff.1 hleafy
    rw [Node.nodes] at hplain hm
    obtain ⟨hself, hplain⟩ := List.forall_mem_cons.1 hplain
    cases hleaf : (⟨own, fields, component, origin, children⟩ : Node).isLeaf with
    | true =>
      have hnone : children = [] := hempty hleaf
      rw [hnone, nodesAll, List.mem_singleton] at hm
      rw [hm] at hmleaf
      cases hmleaf.symm.trans hleaf
    | false =>
      rw [node_of_not_isLeaf s hleaf, if_neg (by rw [hself]; exact Bool.false_ne_true),
        Node.nodeIds_animated, Node.nodeIds_primitive]
      rcases List.mem_cons.1 hm with rfl | hm
      · exact List.mem_cons_self
      · exact List.mem_cons_of_mem _ (mem_nodeIdsIn_nodes s children hbelow hplain m hm hmleaf)

theorem mem_nodeIdsIn_nodes (s : RenderState) : (ns : List Node) → (∀ n ∈ ns, n.Leafy) →
    (∀ m ∈ nodesAll ns, m.isComponent = false) →
    ∀ m ∈ nodesAll ns, m.isLeaf = false → m.id ∈ nodeIdsIn (r.nodes previews s ns).1
  | [], _, _, m, hm, _ => by cases hm
  | n :: ns, hleafy, hplain, m, hm, hmleaf => by
    obtain ⟨s', hs'⟩ := r.nodes_cons previews s n ns
    obtain ⟨hn, hns⟩ := List.forall_mem_cons.1 hleafy
    rw [nodesAll] at hplain hm
    obtain ⟨hplain, hplain'⟩ := List.forall_mem_append.1 hplain
    rw [hs', nodeIdsIn, List.mem_append]
    rcases List.mem_append.1 hm with hm | hm
    · exact .inl (mem_nodeIds_node s n hn hplain m hm hmleaf)
    · exact .inr (mem_nodeIdsIn_nodes s' ns hns hplain' m hm hmleaf)

end

end Resolver

/-! ## Views of trees -/

open Node (idsAll nodesAll)

/-- Clicks are unambiguous. When no id comes twice in a tree and every cached plan is one element with
texts, expressions and places of the children, the ids in the view are ids of elements, they come in
the order of the tree and none comes twice, and what is found under an id is what the node of that id
is shown as. When there are no components, every element's id is in the view. -/
theorem Tree.clicks_render {t : Tree} {r : Resolver} (hnodup : t.root.ids.Nodup)
    (hleafy : t.Leafy) (hcache : r.cache.IsSingle) (previews : Previews) (queue : Queue) :
    (∀ id ∈ nodeIdsIn (t.render r previews queue).1.nodes,
      ∃ n, t.find? id = some n ∧ n.isLeaf = false ∧
        ∀ s, (t.render r previews queue).1.find? id = some (r.node previews s n).1) ∧
    (nodeIdsIn (t.render r previews queue).1.nodes).Nodup ∧
    (nodeIdsIn (t.render r previews queue).1.nodes).Sublist t.allIds ∧
    ((∀ n ∈ t.root.nodes, n.isComponent = false) →
      ∀ n ∈ nodesAll t.root.children, n.isLeaf = false →
        n.id ∈ nodeIdsIn (t.render r previews queue).1.nodes) := by
  have hview : (t.render r previews queue).1.nodes =
      (r.nodes previews { queue } t.root.children).1 := rfl
  have hbelow : (idsAll t.root.children).Sublist t.root.ids := by
    rw [Node.ids_eq]
    exact List.sublist_cons_self _ _
  have hsublist : (nodeIdsIn (r.nodes previews { queue } t.root.children).1).Sublist t.root.ids :=
    (Resolver.nodeIdsIn_sublist hcache { queue } t.root.children).trans hbelow
  have hfind : ∀ id, (t.render r previews queue).1.find? id =
      findIn? id (r.nodes previews { queue } t.root.children).1 := fun _ => rfl
  rw [hview]
  refine ⟨fun id hid => ?_, hsublist.nodup hnodup, hsublist, fun hplain n hn hleaf => ?_⟩
  · obtain ⟨n, hn, rfl, hleaf, hfound⟩ := Resolver.findIn?_nodes hcache { queue } _ hid
    refine ⟨n, Node.find?_of_mem hnodup (Node.mem_nodes_of_below hn), hleaf, fun s => ?_⟩
    rw [hfind, hfound s]
  · exact Resolver.mem_nodeIdsIn_nodes { queue } t.root.children (Node.leafy_iff.1 hleafy).2
      (fun m hm => hplain m (Node.mem_nodes_of_below hm)) n hn hleaf

/-- A box with a paragraph in it, and its plan with two slots under the key of the box. -/
def box : Node where
  id := "box"
  fields := { type := "U.Box" }
  component := some ⟨true, "u", "Box", .named⟩
  children := [.ofType "body" "p"]

def boxPlan : Plan :=
  .component ⟨"Box", .widget, "div", [], .primitive⟩ (.ofNode box)
    [.text "in front", .slot, .expression "between", .slot]

def boxCache : Cache :=
  ⟨.ofList [("ed0855d0382ff8c5cf12ebd364e43f5e00c02676e35f773ec554dc3174367fb7", .ok boxPlan)]⟩

/-- An icon that drops its child, a group, the box, a component that nobody knows and a text. -/
def gallery : Tree :=
  .around
    { Node.root with children :=
      [{ Node.ofType "section" "section" with children :=
        [{ Node.ofType "star" "Star" with
            component := some ⟨true, "lucide-react", "Star", .named⟩
            children := [.ofType "dropped" "b"] },
          { Node.ofType "group" "Fragment" with
            component := some ⟨true, "react", "Fragment", .named⟩
            children := [.ofType "member" "i"] },
          box,
          { Node.ofType "odd" "Odd" with component := some ⟨true, "", "Odd", .named⟩ },
          .ofType "note" textType] }] }
    ⟨"item", 0⟩

theorem clicks_gallery :
    nodeIdsIn (gallery.render ⟨.standard, boxCache⟩ .empty {}).1.nodes =
      ["section", "star", "member", "box", "body", "odd"] ∧
    ∃ n, gallery.find? "box" = some n ∧ n.isLeaf = false ∧
      ∀ s, (gallery.render ⟨.standard, boxCache⟩ .empty {}).1.find? "box" =
        some ((⟨.standard, boxCache⟩ : Resolver).node .empty s n).1 := by
  have hleafy : gallery.Leafy := by
    show ∀ m ∈ gallery.root.nodes, m.isLeaf = true → m.children = []
    decide
  have hcache : boxCache.IsSingle := by
    intro key plan hplan
    have hentry := (OrderedMap.get?_eq_some_iff _).1 hplan
    cases List.mem_singleton.1 hentry
    show ∀ p ∈ _, Plan.isInline p = true
    decide
  have hids : nodeIdsIn (gallery.render ⟨.standard, boxCache⟩ .empty {}).1.nodes =
      ["section", "star", "member", "box", "body", "odd"] := by
    decide +kernel
  have hclicks := Tree.clicks_render (r := ⟨.standard, boxCache⟩) (by decide) hleafy hcache .empty {}
  exact ⟨hids, hclicks.1 "box" (by rw [hids]; decide)⟩

end PageEditor
