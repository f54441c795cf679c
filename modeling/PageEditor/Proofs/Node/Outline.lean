import PageEditor.Edit.Property
import PageEditor.Proofs.Tree.Nodes

/-!
# Outlines

What is left of a node when all is taken away that can be edited in place: its classes, styles,
attributes and animation, and its text if there is a place for text in the markup it was read from.
Writing new values into fields keeps the outline, and so all places and all children.
-/
set_option autoImplicit false

namespace PageEditor

theorem Fields.set_type (f : Fields) (value : String) (field : EditField) :
    (f.set value field).type = f.type := by
  cases field <;> simp only [Fields.set] <;> split <;> rfl

theorem Fields.set_text (f : Fields) (value : String) {field : EditField} (h : field ≠ .text) :
    (f.set value field).text = f.text := by
  cases field with
  | text => exact absurd rfl h
  | className => simp only [Fields.set]; split <;> rfl
  | style name => simp only [Fields.set]; split <;> rfl
  | attr name => simp only [Fields.set]; split <;> rfl

namespace Node

/-- Whether there is a place for text: in a run of text, in an expression, and between the tags of an
element without children. -/
def takesText (n : Node) : Bool :=
  n.isLeaf || (n.children.isEmpty && n.origin.any (·.place.content.isSome))

mutual

def outline : Node → Node
  | ⟨id, fields, component, origin, children⟩ =>
    let n : Node := ⟨id, fields, component, origin, outlineAll children⟩
    { n with fields := { type := fields.type, text := if n.takesText then none else fields.text } }

def outlineAll : List Node → List Node
  | [] => []
  | n :: ns => n.outline :: outlineAll ns

end

theorem outlineAll_eq_map (ns : List Node) : outlineAll ns = ns.map outline := by
  induction ns with
  | nil => rfl
  | cons n ns ih => rw [outlineAll, List.map_cons, ih]

theorem outline_eq (n : Node) :
    n.outline =
      { n with
        fields := { type := n.type, text := if n.takesText then none else n.fields.text }
        children := n.children.map outline } := by
  have htakes : takesText { n with children := n.children.map outline } = n.takesText := by
    simp [takesText, isLeaf, isText, isExpression, type]
  obtain ⟨id, fields, component, origin, children⟩ := n
  rw [outline, ← htakes]
  simp only [outlineAll_eq_map]
  rfl

/-! ## What the outline tells -/

section Outline

variable {n k : Node} (h : n.outline = k.outline)

include h

theorem id_of_outline : n.id = k.id := by
  rw [outline_eq, outline_eq] at h
  exact (congrArg id h :)

theorem type_of_outline : n.type = k.type := by
  rw [outline_eq, outline_eq] at h
  exact (congrArg type h :)

theorem component_of_outline : n.component = k.component := by
  rw [outline_eq, outline_eq] at h
  exact (congrArg component h :)

theorem origin_of_outline : n.origin = k.origin := by
  rw [outline_eq, outline_eq] at h
  exact (congrArg origin h :)

theorem outlines_of_outline : n.children.map outline = k.children.map outline := by
  rw [outline_eq, outline_eq] at h
  exact (congrArg children h :)

theorem isLeaf_of_outline : n.isLeaf = k.isLeaf := by
  simp only [isLeaf, isText, isExpression, type_of_outline h]

theorem children_of_outline {α : Type} {f : Node → α}
    (hf : ∀ {n k : Node}, n.outline = k.outline → f n = f k) :
    n.children.map f = k.children.map f := by
  have hchildren := outlines_of_outline h
  generalize n.children = ns at hchildren
  generalize k.children = ks at hchildren
  induction ns generalizing ks with
  | nil =>
    rw [List.map_nil] at hchildren
    rw [List.map_eq_nil_iff.1 hchildren.symm]
  | cons n ns ih =>
    cases ks with
    | nil => cases hchildren
    | cons k ks =>
      obtain ⟨hn, hns⟩ := List.cons.inj hchildren
      rw [List.map_cons, List.map_cons, hf hn, ih ks hns]

theorem childIds_of_outline : n.childIds = k.childIds :=
  children_of_outline h id_of_outline

theorem isEmpty_of_outline : n.children.isEmpty = k.children.isEmpty := by
  have hids := congrArg List.isEmpty (childIds_of_outline h)
  rwa [childIds, childIds, List.isEmpty_map, List.isEmpty_map] at hids

theorem takesText_of_outline : n.takesText = k.takesText := by
  rw [takesText, takesText, isLeaf_of_outline h, isEmpty_of_outline h, origin_of_outline h]

theorem text_of_outline (htakes : n.takesText = false) : n.fields.text = k.fields.text := by
  have htakes' := (takesText_of_outline h).symm.trans htakes
  rw [outline_eq, outline_eq, htakes, htakes'] at h
  exact (congrArg (·.fields.text) h :)

end Outline

mutual

theorem nodes_outline : (n : Node) → n.outline.nodes = n.nodes.map outline
  | ⟨id, fields, component, origin, children⟩ => by
    rw [nodes_eq, nodes, List.map_cons, ← nodesAll_outline children, outline]

theorem nodesAll_outline : (ns : List Node) → nodesAll (outlineAll ns) = (nodesAll ns).map outline
  | [] => rfl
  | n :: ns => by
    rw [outlineAll, nodesAll, nodesAll, List.map_append, nodes_outline n, nodesAll_outline ns]

end

theorem exists_mem_below {n k m : Node} (h : n.outline = k.outline)
    (hm : m ∈ nodesAll n.children) : ∃ j ∈ nodesAll k.children, m.outline = j.outline := by
  have hchildren := outlines_of_outline h
  rw [← outlineAll_eq_map, ← outlineAll_eq_map] at hchildren
  have hmem : m.outline ∈ (nodesAll n.children).map outline := List.mem_map_of_mem hm
  rw [← nodesAll_outline, hchildren, nodesAll_outline] at hmem
  obtain ⟨j, hj, houtline⟩ := List.mem_map.1 hmem
  exact ⟨j, hj, houtline.symm⟩

theorem exists_mem_child {n k m : Node} (h : n.outline = k.outline) (hm : m ∈ n.children) :
    ∃ j ∈ k.children, m.outline = j.outline := by
  have hmem : m.outline ∈ n.children.map outline := List.mem_map_of_mem hm
  rw [outlines_of_outline h] at hmem
  obtain ⟨j, hj, houtline⟩ := List.mem_map.1 hmem
  exact ⟨j, hj, houtline.symm⟩

theorem exists_mem_outline {n k m : Node} (h : n.outline = k.outline) (hm : m ∈ n.nodes) :
    ∃ j ∈ k.nodes, m.outline = j.outline := by
  rw [nodes_eq] at hm
  rcases List.mem_cons.1 hm with rfl | hm
  · exact ⟨k, k.mem_nodes_self, h⟩
  · obtain ⟨j, hj, houtline⟩ := exists_mem_below h hm
    exact ⟨j, by rw [nodes_eq]; exact List.mem_cons_of_mem k hj, houtline⟩

/-! ## Changing fields -/

section Modify

variable {id : String} {f : Node → Node}

mutual

theorem outline_modify? : (n : Node) → {n' : Node} → n.modify? id f = some n' →
    (∀ m ∈ n.nodes, m.id = id → (f m).outline = m.outline) → n'.outline = n.outline
  | ⟨own, fields, component, origin, children⟩, n', h, hf => by
    rw [modify?] at h
    rw [nodes] at hf
    by_cases hown : own = id
    · rw [if_pos hown] at h
      cases h
      exact hf _ List.mem_cons_self hown
    · rw [if_neg hown] at h
      obtain ⟨cs, hcs, rfl⟩ := Option.map_eq_some_iff.1 h
      have hbelow := outline_modifyIn? children hcs fun m hm => hf m (List.mem_cons_of_mem _ hm)
      rw [outline, outline, hbelow]

theorem outline_modifyIn? : (ns : List Node) → {ns' : List Node} → modifyIn? id f ns = some ns' →
    (∀ m ∈ nodesAll ns, m.id = id → (f m).outline = m.outline) → outlineAll ns' = outlineAll ns
  | [], ns', h, _ => by cases h
  | n :: ns, ns', h, hf => by
    rw [modifyIn?] at h
    rw [nodesAll] at hf
    cases hn : modify? id f n with
    | some n' =>
      rw [hn] at h
      cases h
      rw [outlineAll, outlineAll, outline_modify? n hn fun m hm => hf m (List.mem_append_left _ hm)]
    | none =>
      rw [hn] at h
      obtain ⟨ms, hms, rfl⟩ := Option.map_eq_some_iff.1 h
      rw [outlineAll, outlineAll,
        outline_modifyIn? ns hms fun m hm => hf m (List.mem_append_right _ hm)]

end

theorem outline_modify {n : Node} (hf : ∀ m ∈ n.nodes, m.id = id → (f m).outline = m.outline) :
    (n.modify id f).outline = n.outline := by
  rw [modify]
  cases hn : n.modify? id f with
  | none => rfl
  | some n' => exact outline_modify? n hn hf

end Modify

theorem outline_set {n : Node} (value : String) {field : EditField}
    (h : field = .text → n.takesText = true) :
    { n with fields := n.fields.set value field }.outline = n.outline := by
  have htype := Fields.set_type n.fields value field
  have htakes : takesText { n with fields := n.fields.set value field } = n.takesText := by
    simp only [takesText, isLeaf, isText, isExpression, type, htype]
  rw [outline_eq, outline_eq, htakes]
  by_cases htext : field = .text
  · rw [h htext]
    simp only [type, htype]
    rfl
  · simp only [type, htype, Fields.set_text n.fields value htext]

end Node

end PageEditor
