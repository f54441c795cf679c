import PageEditor.Edit.Command
import PageEditor.Proofs.Tree.Descendants
import PageEditor.Proofs.Tree.Ids

/-!
# Well-formed trees

The tree of a page that was read is well-formed, and every command keeps a tree well-formed. New ids
are no danger, since the index of a well-formed tree tells exactly which ids it has. For the same
reason a command that is turned down leaves the tree as it was: whatever a move could still find
missing once it has been planned is there.
-/
set_option autoImplicit false

namespace PageEditor

open IdSource (Drawn)

/-! ## The index -/

namespace Tree

variable {t : Tree} {id parent x : String}

/-- The root has the root's id, no id comes twice and the index holds the edges, whatever the type of
the root is. -/
structure Indexed (t : Tree) : Prop where
  root_id : t.root.id = rootId
  nodup : t.root.ids.Nodup
  parents_eq : t.parents = t.root.edges

theorem WellFormed.indexed (h : t.WellFormed) : t.Indexed := ⟨h.root_id, h.nodup, h.parents_eq⟩

theorem Indexed.edge_keys_nodup (h : t.Indexed) :
    rootId ∉ t.root.edges.map Prod.fst ∧ (t.root.edges.map Prod.fst).Nodup := by
  have hnodup := (t.root.ids_perm.nodup_iff).1 h.nodup
  rw [h.root_id, List.nodup_cons] at hnodup
  exact hnodup

theorem Indexed.parentId?_eq_some_iff (h : t.Indexed) :
    t.parentId? id = some parent ↔ (id, parent) ∈ t.root.edges := by
  have hreverse : (t.root.edges.reverse.map Prod.fst).Nodup := by
    rw [List.map_reverse]
    exact (List.reverse_perm _).nodup_iff.2 h.edge_keys_nodup.2
  rw [parentId?, h.parents_eq, Entries.lookup_eq_some_iff hreverse, List.mem_reverse]

theorem Indexed.mem_ids_iff (h : t.Indexed) :
    x ∈ t.root.ids ↔ x = rootId ∨ ∃ p, t.parentId? x = some p := by
  rw [t.root.ids_perm.mem_iff, h.root_id, List.mem_cons]
  simp only [h.parentId?_eq_some_iff, List.mem_map, Prod.exists, exists_and_right, exists_eq_right]

theorem Indexed.contains_iff (h : t.Indexed) : t.contains x = true ↔ x ∈ t.allIds := by
  rw [allIds, h.mem_ids_iff, contains, Bool.or_eq_true, beq_iff_eq, Option.isSome_iff_exists]

theorem Indexed.mem_takenIds_iff (h : t.Indexed) : x ∈ t.takenIds ↔ x ∈ t.root.ids :=
  (takenIds_perm h.root_id h.parents_eq).mem_iff

theorem Indexed.root_mem (h : t.Indexed) : rootId ∈ t.root.ids :=
  h.mem_ids_iff.2 (.inl rfl)

theorem Indexed.parent_holds (h : t.Indexed) (hp : t.parentId? id = some parent) :
    ∃ p c, t.find? parent = some p ∧ t.find? id = some c ∧ c ∈ p.children ∧ c.id = id ∧
      p.id = parent := by
  obtain ⟨p, hmem, rfl, c, hc, rfl⟩ := Node.mem_edges_iff.1 (h.parentId?_eq_some_iff.1 hp)
  have hchild := Node.nodes_subset t.root p hmem c (Node.mem_nodes_of_child hc)
  exact ⟨p, c, Node.find?_of_mem h.nodup hmem, Node.find?_of_mem h.nodup hchild, hc, rfl, rfl⟩

theorem Indexed.parent_mem (h : t.Indexed) (hp : t.parentId? id = some parent) :
    parent ∈ t.root.ids := by
  obtain ⟨p, _, hfind, _⟩ := h.parent_holds hp
  exact Node.id_mem_of_find? hfind

theorem Indexed.ne_root (h : t.Indexed) (hp : t.parentId? id = some parent) :
    id ≠ rootId := by
  rintro rfl
  exact h.edge_keys_nodup.1 (List.mem_map.2 ⟨_, h.parentId?_eq_some_iff.1 hp, rfl⟩)

theorem Indexed.eq_of_id (h : t.Indexed) {n m : Node} (hn : n ∈ t.root.nodes)
    (hm : m ∈ t.root.nodes) (hid : n.id = m.id) : n = m := by
  have hfind := Node.find?_of_mem h.nodup hn
  rw [hid, Node.find?_of_mem h.nodup hm] at hfind
  exact (Option.some.inj hfind).symm

/-! ## Well-formed after a change -/

theorem WellFormed.withIds (h : t.WellFormed) (ids : IdSource) : ({ t with ids } : Tree).WellFormed :=
  ⟨h.root_id, h.root_type, h.nodup, h.parents_eq⟩

theorem wellFormed_around {root : Node} (ids : IdSource) (hid : root.id = rootId)
    (htype : root.type = rootType) (hnodup : root.ids.Nodup) : (around root ids).WellFormed :=
  ⟨hid, htype, hnodup, rfl⟩

/-- A change that keeps a node's id and fields. -/
def KeepsHead (f : Node → Node) : Prop := ∀ m, (f m).id = m.id ∧ (f m).fields = m.fields

theorem keepsHead_insertChild (index : Node → Nat) (child : Node) :
    KeepsHead fun p => p.insertChild (index p) child := fun _ => ⟨rfl, rfl⟩

theorem Indexed.editNode (h : t.Indexed) {f : Node → Node} (hf : ∀ m, (f m).id = m.id)
    (hnodup : (t.root.modify id f).ids.Nodup) : (t.editNode id f).Indexed :=
  ⟨(Node.modify_id id f hf t.root).trans h.root_id, hnodup, rfl⟩

theorem wellFormed_editNode (h : t.WellFormed) {f : Node → Node} (hf : KeepsHead f)
    (hnodup : (t.root.modify id f).ids.Nodup) : (t.editNode id f).WellFormed := by
  have hends := h.indexed.editNode (fun m => (hf m).1) hnodup
  refine wellFormed_around t.ids hends.root_id ?_ hnodup
  have htype := Node.modify_type id f t.root fun _ => by rw [Node.type, (hf t.root).2, Node.type]
  exact htype.trans h.root_type

end Tree

namespace Node

/-! ## Children that come and go -/

theorem filter_insertIdx_of_neg {α : Type} {p : α → Bool} {x : α} (hx : p x = false)
    (xs : List α) : ∀ i, (xs.insertIdx i x).filter p = xs.filter p := by
  have hno : ¬p x = true := by simp [hx]
  induction xs with
  | nil =>
    intro i
    cases i with
    | zero => exact List.filter_cons_of_neg hno
    | succ i => rfl
  | cons y ys ih =>
    intro i
    cases i with
    | zero => exact List.filter_cons_of_neg hno
    | succ i => rw [List.insertIdx_succ_cons, List.filter_cons, List.filter_cons, ih i]

theorem idsAll_eq_flatMap (ns : List Node) : idsAll ns = ns.flatMap ids := by
  induction ns with
  | nil => rfl
  | cons n ns ih => rw [idsAll, List.flatMap_cons, ih]

theorem idsAll_perm_of_perm {ns ms : List Node} (h : ns.Perm ms) : (idsAll ns).Perm (idsAll ms) := by
  rw [idsAll_eq_flatMap, idsAll_eq_flatMap]
  exact h.flatMap_right _

theorem insertChild_ids_perm (n : Node) (index : Nat) (child : Node) :
    ((n.insertChild index child).ids).Perm (n.ids ++ child.ids) := by
  rw [ids_eq, ids_eq n]
  refine List.Perm.cons _ ?_
  have hperm := List.perm_insertIdx child n.children (Nat.min_le_right index n.children.length)
  refine (idsAll_perm_of_perm hperm).trans ?_
  exact List.perm_append_comm

theorem dropChildren_ids_perm (n : Node) (id : String) :
    ((n.dropChildren id).ids ++ idsAll (n.children.filter fun c => !(c.id != id))).Perm n.ids := by
  rw [ids_eq, ids_eq n]
  refine List.Perm.cons _ ?_
  have hperm := idsAll_perm_of_perm (List.filter_append_perm (·.id != id) n.children)
  rw [idsAll_eq_flatMap, List.flatMap_append, ← idsAll_eq_flatMap, ← idsAll_eq_flatMap] at hperm
  exact hperm

theorem eraseChild_ids_perm {n c : Node} {id : String}
    (h : n.children.find? (·.id == id) = some c) :
    ((n.eraseChild id).ids ++ c.ids).Perm n.ids := by
  have hperm : n.children.Perm (c :: n.children.eraseP (·.id == id)) := by
    obtain ⟨hc, front, back, hsplit, hfront⟩ := List.find?_eq_some_iff_append.1 h
    have htail : (c :: back).eraseP (·.id == id) = back := List.eraseP_cons_of_pos hc
    rw [hsplit, List.eraseP_append_right _ (fun b hb => by simpa using hfront b hb), htail]
    exact List.perm_middle
  rw [ids_eq, ids_eq n]
  refine List.Perm.cons _ ?_
  refine List.Perm.trans ?_ (idsAll_perm_of_perm hperm).symm
  rw [idsAll]
  exact List.perm_append_comm

end Node

end PageEditor
