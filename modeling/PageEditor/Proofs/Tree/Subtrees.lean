import PageEditor.Proofs.Tree.Edits

/-!
# Subtrees

What lies in the subtree of a node, told by the nodes and not by a search along the index: the search
for descendants finds exactly that. A tree without a subtree keeps every node that is not in it, so two
trees that differ in where one subtree hangs have the same nodes elsewhere, with the same parents.
-/
set_option autoImplicit false

namespace PageEditor

/-! ## Taking a subtree out -/

namespace Node

mutual

/-- The node without the subtrees below it whose topmost node has that id. -/
def without (id : String) : Node → Node
  | ⟨own, fields, component, origin, children⟩ =>
    ⟨own, fields, component, origin, withoutAll id children⟩

def withoutAll (id : String) : List Node → List Node
  | [] => []
  | n :: ns => if n.id = id then withoutAll id ns else n.without id :: withoutAll id ns

end

theorem without_eq (id : String) (n : Node) :
    n.without id = { n with children := withoutAll id n.children } := by
  cases n
  rw [without]

@[simp] theorem without_id (id : String) (n : Node) : (n.without id).id = n.id := by
  rw [without_eq]

theorem withoutAll_eq (id : String) (ns : List Node) :
    withoutAll id ns = (ns.filter (·.id != id)).map (without id) := by
  induction ns with
  | nil => rfl
  | cons n ns ih => by_cases hn : n.id = id <;> simp [withoutAll, hn, ih]

mutual

theorem without_modify? {id x : String} {f : Node → Node}
    (hf : ∀ m, (f m).without id = m.without id) :
    (n n' : Node) → n.modify? x f = some n' → n'.without id = n.without id
  | ⟨own, fields, component, origin, children⟩, n', h => by
    rw [modify?] at h
    by_cases hown : own = x
    · rw [if_pos hown] at h
      cases h
      exact hf _
    · rw [if_neg hown] at h
      obtain ⟨cs, hcs, rfl⟩ := Option.map_eq_some_iff.1 h
      rw [without, without, withoutAll_modifyIn? hf children cs hcs]

theorem withoutAll_modifyIn? {id x : String} {f : Node → Node}
    (hf : ∀ m, (f m).without id = m.without id) :
    (ns ns' : List Node) → modifyIn? x f ns = some ns' → withoutAll id ns' = withoutAll id ns
  | [], ns', h => by cases h
  | n :: ns, ns', h => by
    rw [modifyIn?] at h
    cases hm : modify? x f n with
    | some n' =>
      rw [hm] at h
      cases h
      have hn := without_modify? hf n n' hm
      have hid : n'.id = n.id := by rw [← without_id id n', hn, without_id]
      rw [withoutAll, withoutAll, hid, hn]
    | none =>
      rw [hm] at h
      obtain ⟨ms, hms, rfl⟩ := Option.map_eq_some_iff.1 h
      rw [withoutAll, withoutAll, withoutAll_modifyIn? hf ns ms hms]

end

theorem without_modify {id : String} {f : Node → Node} (hf : ∀ m, (f m).without id = m.without id)
    (x : String) (n : Node) : (n.modify x f).without id = n.without id := by
  rw [modify]
  cases hm : n.modify? x f with
  | none => rfl
  | some n' => exact without_modify? hf n n' hm

theorem without_eraseChild (id : String) (n : Node) :
    (n.eraseChild id).without id = n.without id := by
  have hfilter : ∀ ns : List Node,
      (ns.eraseP (·.id == id)).filter (·.id != id) = ns.filter (·.id != id) := by
    intro ns
    induction ns with
    | nil => rfl
    | cons n ns ih => by_cases hn : n.id = id <;> simp [hn, ih]
  rw [without_eq, without_eq id n, withoutAll_eq, withoutAll_eq]
  show ({ n with children := _ } : Node) = _
  rw [eraseChild, hfilter]

theorem without_insertChild {id : String} {child : Node} (hchild : child.id = id) (index : Nat)
    (n : Node) : (n.insertChild index child).without id = n.without id := by
  have hfilter := filter_insertIdx_of_neg (p := fun m : Node => m.id != id) (x := child)
    (by simp [hchild]) n.children (min index n.children.length)
  rw [without_eq, without_eq id n, withoutAll_eq, withoutAll_eq]
  show ({ n with children := _ } : Node) = _
  rw [insertChild, hfilter]

/-! ## The nodes that stay -/

mutual

theorem without_mem_nodes {id : String} {m : Node} : (n : Node) → m ∈ n.nodes → n.id ≠ id →
    (∀ k ∈ n.nodes, k.id = id → m ∉ k.nodes) → m.without id ∈ (n.without id).nodes
  | ⟨own, fields, component, origin, children⟩, hm, _, hout => by
    rw [nodes] at hm hout
    rw [without, nodes]
    rcases List.mem_cons.1 hm with rfl | hm
    · rw [without]
      exact List.mem_cons_self
    · refine List.mem_cons_of_mem _ (without_mem_nodesAll children hm ?_)
      exact fun k hk => hout k (List.mem_cons_of_mem _ hk)

theorem without_mem_nodesAll {id : String} {m : Node} : (ns : List Node) → m ∈ nodesAll ns →
    (∀ k ∈ nodesAll ns, k.id = id → m ∉ k.nodes) → m.without id ∈ nodesAll (withoutAll id ns)
  | [], hm, _ => by cases hm
  | n :: ns, hm, hout => by
    rw [nodesAll] at hm hout
    rw [withoutAll]
    have hrest : m ∈ nodesAll ns → m.without id ∈ nodesAll (withoutAll id ns) := fun hm =>
      without_mem_nodesAll ns hm fun k hk => hout k (List.mem_append_right _ hk)
    by_cases hn : n.id = id
    · have hnot := hout n (List.mem_append_left _ n.mem_nodes_self) hn
      rw [if_pos hn]
      exact hrest ((List.mem_append.1 hm).resolve_left hnot)
    · rw [if_neg hn, nodesAll]
      rcases List.mem_append.1 hm with hm | hm
      · exact List.mem_append_left _ (without_mem_nodes n hm hn
          fun k hk => hout k (List.mem_append_left _ hk))
      · exact List.mem_append_right _ (hrest hm)

end

mutual

theorem exists_of_mem_without {id : String} {m : Node} : (n : Node) → m ∈ (n.without id).nodes →
    ∃ k ∈ n.nodes, m = k.without id
  | ⟨own, fields, component, origin, children⟩, hm => by
    rw [without, nodes] at hm
    rcases List.mem_cons.1 hm with rfl | hm
    · exact ⟨_, mem_nodes_self _, by rw [without]⟩
    · obtain ⟨k, hk, hmk⟩ := exists_of_mem_withoutAll children hm
      exact ⟨k, mem_nodes_of_below hk, hmk⟩

theorem exists_of_mem_withoutAll {id : String} {m : Node} : (ns : List Node) →
    m ∈ nodesAll (withoutAll id ns) → ∃ k ∈ nodesAll ns, m = k.without id
  | [], hm => by cases hm
  | n :: ns, hm => by
    rw [nodesAll]
    rw [withoutAll] at hm
    have hrest : m ∈ nodesAll (withoutAll id ns) → ∃ k ∈ n.nodes ++ nodesAll ns, m = k.without id := by
      intro hm
      obtain ⟨k, hk, hmk⟩ := exists_of_mem_withoutAll ns hm
      exact ⟨k, List.mem_append_right _ hk, hmk⟩
    by_cases hn : n.id = id
    · rw [if_pos hn] at hm
      exact hrest hm
    · rw [if_neg hn, nodesAll] at hm
      rcases List.mem_append.1 hm with hm | hm
      · obtain ⟨k, hk, hmk⟩ := exists_of_mem_without n hm
        exact ⟨k, List.mem_append_left _ hk, hmk⟩
      · exact hrest hm

end

end Node

namespace Tree

variable {t : Tree} {a b x parent : String}

/-- The tree without the subtree of a node. -/
def without (t : Tree) (id : String) : Tree := t.edit (Node.without id)

/-- A node is itself in its subtree, and so is all that is below it. -/
def InSubtree (t : Tree) (a x : String) : Prop := ∃ n, t.find? a = some n ∧ x ∈ n.ids

/-! ## In a subtree -/

theorem Indexed.inSubtree_of_parent (h : t.Indexed) (hp : t.parentId? x = some parent)
    (ha : t.InSubtree a parent) : t.InSubtree a x := by
  obtain ⟨n, hn, hmem⟩ := ha
  obtain ⟨p, c, hpfind, _, hc, rfl, rfl⟩ := h.parent_holds hp
  have hnodes := Node.mem_nodes_of_find? hn
  rw [Node.ids_eq_map] at hmem
  obtain ⟨m, hm, hmid⟩ := List.mem_map.1 hmem
  have hmp : m = p :=
    h.eq_of_id (Node.nodes_subset _ n hnodes m hm) (Node.mem_nodes_of_find? hpfind) hmid
  refine ⟨n, hn, ?_⟩
  rw [Node.ids_eq_map]
  exact List.mem_map.2 ⟨c, Node.nodes_subset n m hm c (Node.mem_nodes_of_child (hmp ▸ hc)), rfl⟩

theorem Indexed.parentId?_of_inSubtree (h : t.Indexed) (ha : t.InSubtree a x) (hne : x ≠ a) :
    ∃ p, t.parentId? x = some p ∧ t.InSubtree a p := by
  obtain ⟨n, hn, hmem⟩ := ha
  have hedge := (n.ids_perm.mem_iff).1 hmem
  rw [Node.id_of_find? hn, List.mem_cons] at hedge
  obtain ⟨⟨c, p⟩, hcp, rfl⟩ := List.mem_map.1 (hedge.resolve_left hne)
  obtain ⟨m, hm, rfl, k, hk, rfl⟩ := Node.mem_edges_iff.1 hcp
  refine ⟨m.id, h.parentId?_eq_some_iff.2 (Node.mem_edges_iff.2 ⟨m, ?_, rfl, k, hk, rfl⟩), n, hn, ?_⟩
  · exact Node.nodes_subset _ n (Node.mem_nodes_of_find? hn) m hm
  · rw [Node.ids_eq_map]
    exact List.mem_map_of_mem hm

theorem Indexed.not_inSubtree_root (h : t.Indexed) (ha : a ≠ rootId) : ¬ t.InSubtree a rootId := by
  intro hroot
  obtain ⟨p, hp, _⟩ := h.parentId?_of_inSubtree hroot (Ne.symm ha)
  exact h.ne_root hp rfl

/-- The search for descendants finds the subtree. -/
theorem Indexed.isDescendant_iff (h : t.Indexed) (ha : a ∈ t.allIds) (hne : x ≠ a) :
    t.isDescendant a x = true ↔ t.InSubtree a x := by
  obtain ⟨n, hn⟩ := Node.exists_find? ha
  have hid := Node.id_of_find? hn
  have hnodes := Node.mem_nodes_of_find? hn
  rw [isDescendant, Hierarchy.isDescendant, List.contains_iff_mem]
  constructor
  · intro hx
    -- Every child link out of the subtree leads to a child of a node of the subtree.
    have hlink : ∀ y m, m ∈ n.nodes → m.id = y → ∀ c, t.hierarchy.Link y c → ∃ k ∈ n.nodes, k.id = c := by
      intro y m hm hy c hc
      have hfind : t.find? y = some m :=
        hy ▸ Node.find?_of_mem h.nodup (Node.nodes_subset _ n hnodes m hm)
      have hc' : c ∈ t.children y := hc
      rw [children, hfind] at hc'
      obtain ⟨k, hk, rfl⟩ := List.mem_map.1 hc'
      exact ⟨k, Node.nodes_subset n m hm k (Node.mem_nodes_of_child hk), rfl⟩
    have hbelow := ((t.hierarchy.mem_descendants_iff a x).1 hx).2
    have hmem : ∃ k ∈ n.nodes, k.id = x := by
      clear hx hne
      induction hbelow with
      | child hb => exact hlink _ n n.mem_nodes_self hid _ hb
      | step _ hc ih =>
        obtain ⟨k, hk, hkid⟩ := ih
        exact hlink _ k hk hkid _ hc
    refine ⟨n, hn, ?_⟩
    rw [Node.ids_eq_map]
    exact List.mem_map.2 hmem
  · rintro ⟨m, hm, hx⟩
    cases hn.symm.trans hm
    have hsub := h.ids_below hnodes x hx
    rw [hid] at hsub
    exact hsub.resolve_left hne

/-! ## Two trees that differ in one subtree -/

theorem Indexed.find?_child (h : t.Indexed) {p c : Node} (hp : t.find? parent = some p)
    (hc : c ∈ p.children) : t.find? c.id = some c ∧ t.parentId? c.id = some parent := by
  have hnodes := Node.mem_nodes_of_find? hp
  constructor
  · exact Node.find?_of_mem h.nodup (Node.nodes_subset _ p hnodes c (Node.mem_nodes_of_child hc))
  · refine h.parentId?_eq_some_iff.2 (Node.mem_edges_iff.2 ⟨p, hnodes, ?_, c, hc, rfl⟩)
    exact Node.id_of_find? hp

section Rest

variable {t' : Tree} (h : t.Indexed) (h' : t'.Indexed)
  (hrest : t'.root.without a = t.root.without a) (ha : a ≠ rootId)

include h h' hrest ha

theorem Indexed.find?_of_without {n : Node} (hx : ¬ t.InSubtree a x) (hn : t.find? x = some n) :
    ∃ m, t'.find? x = some m ∧ m.without a = n.without a := by
  have hroot : t.root.id ≠ a := by
    rw [h.root_id]
    exact Ne.symm ha
  have hstays := Node.without_mem_nodes t.root (Node.mem_nodes_of_find? hn) hroot (by
    rintro k hk rfl hnk
    refine hx ⟨k, Node.find?_of_mem h.nodup hk, ?_⟩
    rw [Node.ids_eq_map]
    exact List.mem_map.2 ⟨n, hnk, Node.id_of_find? hn⟩)
  rw [← hrest] at hstays
  obtain ⟨m, hm, hnm⟩ := Node.exists_of_mem_without t'.root hstays
  have hid : m.id = x := by
    rw [← Node.without_id a m, ← hnm, Node.without_id, Node.id_of_find? hn]
  exact ⟨m, hid ▸ Node.find?_of_mem h'.nodup hm, hnm.symm⟩

theorem Indexed.parentId?_of_without (hx : ¬ t.InSubtree a x) (hne : x ≠ a)
    (hp : t.parentId? x = some parent) : t'.parentId? x = some parent := by
  obtain ⟨p, c, hfind, _, hc, rfl, _⟩ := h.parent_holds hp
  have hout : ¬ t.InSubtree a parent := fun hsub => hx (h.inSubtree_of_parent hp hsub)
  obtain ⟨q, hq, hsame⟩ := h.find?_of_without h' hrest ha hout hfind
  have hmem : c.without a ∈ (p.without a).children := by
    rw [Node.without_eq, Node.withoutAll_eq]
    exact List.mem_map.2 ⟨c, List.mem_filter.2 ⟨hc, by simpa using hne⟩, rfl⟩
  rw [← hsame, Node.without_eq, Node.withoutAll_eq] at hmem
  obtain ⟨d, hd, hdc⟩ := List.mem_map.1 hmem
  have hid : d.id = c.id := by rw [← Node.without_id a d, hdc, Node.without_id]
  have hchild := (h'.find?_child hq (List.mem_filter.1 hd).1).2
  rwa [hid] at hchild

end Rest

end Tree

end PageEditor
