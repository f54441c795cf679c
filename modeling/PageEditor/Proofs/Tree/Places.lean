import PageEditor.Proofs.Tree.Nodes

/-!
# Elements by their places

An element is found by its place among the elements of its parent, and that one by its own place, and
so on from the root. Texts and expressions do not count: they may come together with others when a
page is written and read again.
-/
set_option autoImplicit false

namespace PageEditor.Node

/-- The nodes that are elements. -/
def elementsOf (ns : List Node) : List Node := ns.filter (!·.isLeaf)

/-- The children that are elements. -/
def elements (n : Node) : List Node := elementsOf n.children

/-- The element at a place: the first number is its place, or that of the node around it, among the
elements of the node. -/
def elementAt? : List Nat → Node → Option Node
  | [], n => some n
  | k :: ks, n => (n.elements[k]?).bind (elementAt? ks)

variable {n m : Node} {f : Node → Node} {k : Nat} {ks : List Nat}

theorem elementAt?_cons : n.elementAt? (k :: ks) = some m ↔
    ∃ c, n.elements[k]? = some c ∧ c.elementAt? ks = some m := by
  rw [elementAt?, Option.bind_eq_some_iff]

theorem mem_elements {c : Node} (h : c ∈ n.elements) : c ∈ n.children ∧ c.isLeaf = false := by
  have hmem := List.mem_filter.1 h
  exact ⟨hmem.1, by simpa using hmem.2⟩

theorem elements_eq_children (h : ∀ c ∈ n.children, c.isLeaf = false) : n.elements = n.children := by
  rw [elements, elementsOf, List.filter_eq_self]
  intro c hc
  rw [h c hc]
  rfl

theorem isLeaf_of_elementAt? (h : n.elementAt? (k :: ks) = some m) : m.isLeaf = false := by
  induction ks generalizing n k with
  | nil =>
    obtain ⟨c, hc, hm⟩ := elementAt?_cons.1 h
    cases hm
    exact (mem_elements (List.mem_of_getElem? hc)).2
  | cons k' ks ih =>
    obtain ⟨c, _, hm⟩ := elementAt?_cons.1 h
    exact ih hm

theorem mem_nodes_of_elementAt? (h : n.elementAt? ks = some m) : m ∈ n.nodes := by
  induction ks generalizing n with
  | nil =>
    cases h
    exact mem_nodes_self _
  | cons k ks ih =>
    obtain ⟨c, hc, hm⟩ := elementAt?_cons.1 h
    have hchild := (mem_elements (List.mem_of_getElem? hc)).1
    exact nodes_subset n c (mem_nodes_of_child hchild) m (ih hm)

theorem mem_nodesAll_of_elementAt? (h : n.elementAt? (k :: ks) = some m) :
    m ∈ nodesAll n.children := by
  obtain ⟨c, hc, hm⟩ := elementAt?_cons.1 h
  have hchild := (mem_elements (List.mem_of_getElem? hc)).1
  exact nodesAll_subset _ c (mem_nodesAll hchild) m (mem_nodes_of_elementAt? hm)

theorem children_ne_nil_of_elementAt? (h : n.elementAt? (k :: ks) = some m) : n.children ≠ [] := by
  obtain ⟨c, hc, _⟩ := elementAt?_cons.1 h
  exact List.ne_nil_of_mem (mem_elements (List.mem_of_getElem? hc)).1

theorem elements_map (hleaf : ∀ c, (f c).isLeaf = c.isLeaf) (ns : List Node) :
    elementsOf (ns.map f) = (elementsOf ns).map f := by
  rw [elementsOf, elementsOf, List.filter_map]
  simp only [Function.comp_def, hleaf]

theorem isLeaf_modify {id : String} (hf : ∀ c, (f c).type = c.type) (c : Node) :
    (c.modify id f).isLeaf = c.isLeaf := by
  have htype := modify_type id f c fun _ => hf c
  rw [isLeaf, isLeaf, isText, isText, isExpression, isExpression, htype]

theorem elementAt?_modify (hnodup : n.ids.Nodup) (hf : ∀ c, (f c).type = c.type)
    (h : n.elementAt? ks = some m) : (n.modify m.id f).elementAt? ks = some (f m) := by
  induction ks generalizing n with
  | nil =>
    cases h
    rw [modify_eq, if_pos rfl]
    rfl
  | cons k ks ih =>
    have hbelow := mem_nodesAll_of_elementAt? h
    obtain ⟨c, hc, hm⟩ := elementAt?_cons.1 h
    have hchild := (mem_elements (List.mem_of_getElem? hc)).1
    have hne : n.id ≠ m.id := by
      rw [ids_eq, List.nodup_cons, idsAll_eq_map] at hnodup
      exact fun hid => hnodup.1 (hid ▸ List.mem_map_of_mem hbelow)
    have hcnodup : c.ids.Nodup := nodup_of_child hnodup hchild
    rw [modify_of_ne m.id f hne hnodup]
    refine elementAt?_cons.2 ⟨c.modify m.id f, ?_, ih hcnodup hm⟩
    rw [elements, elements_map (isLeaf_modify hf), List.getElem?_map]
    exact congrArg (Option.map _) hc

end PageEditor.Node
