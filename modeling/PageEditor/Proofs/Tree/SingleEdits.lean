import PageEditor.Proofs.Tree.Duplicates

/-!
# Adding and deleting

When a node can be added or deleted, and what the tree is then. An addition is told by what is left
when the new node is taken out again, which is the old tree, and by where its parent holds it. A
deletion takes a subtree out: the nodes that are left are the old ones without it, in their order, and
the index of parents loses the entries of the subtree only.
-/
set_option autoImplicit false

namespace PageEditor

/-! ## Given entries and defaults -/

theorem OrderedMap.get?_insertAll {α : Type} (es : List (String × α)) (k : String) :
    ∀ m : OrderedMap α, (m.insertAll es).get? k = ((OrderedMap.ofList es).get? k).or (m.get? k) := by
  induction es with
  | nil => exact fun _ => rfl
  | cons e es ih =>
    intro m
    have hstep : ∀ m : OrderedMap α, (m.insertAll (e :: es)).get? k =
        ((OrderedMap.ofList es).get? k).or (if k = e.1 then some e.2 else m.get? k) := by
      intro m
      rw [← get?_insert, ← ih]
      rfl
    have hlist : (OrderedMap.ofList (e :: es)).get? k =
        ((OrderedMap.ofList es).get? k).or (if k = e.1 then some e.2 else none) := hstep .empty
    rw [hstep m, hlist, Option.or_assoc]
    by_cases hk : k = e.1 <;> simp [hk]

/-! ## Nodes without a subtree -/

namespace Node

variable {id : String}

mutual

theorem ids_without_sublist (id : String) : (n : Node) → (n.without id).ids.Sublist n.ids
  | ⟨own, fields, component, origin, children⟩ => by
    rw [without, ids, ids]
    exact (idsAll_withoutAll_sublist id children).cons_cons own

theorem idsAll_withoutAll_sublist (id : String) :
    (ns : List Node) → (idsAll (withoutAll id ns)).Sublist (idsAll ns)
  | [] => List.Sublist.refl _
  | n :: ns => by
    rw [withoutAll, idsAll]
    split
    · exact (idsAll_withoutAll_sublist id ns).trans (List.sublist_append_right _ _)
    · rw [idsAll]
      exact (ids_without_sublist id n).append (idsAll_withoutAll_sublist id ns)

end

mutual

theorem notMem_idsAll_without : (n : Node) → id ∉ idsAll (n.without id).children
  | ⟨own, fields, component, origin, children⟩ => by
    rw [without]
    exact notMem_idsAll_withoutAll children

theorem notMem_idsAll_withoutAll : (ns : List Node) → id ∉ idsAll (withoutAll id ns)
  | [] => by
    rw [withoutAll]
    exact List.not_mem_nil
  | n :: ns => by
    rw [withoutAll]
    split
    · exact notMem_idsAll_withoutAll ns
    · rename_i hn
      rw [idsAll, List.mem_append, not_or, notMem_ids_iff, without_id]
      exact ⟨⟨hn, notMem_idsAll_without n⟩, notMem_idsAll_withoutAll ns⟩

end

end Node

namespace Tree

variable {t t' : Tree} {id x parent parentId type : String} {index : Option Nat}
  {text : Option String} {attributes : List (String × String)} {d : Defaults}

/-! ## Additions -/

/-- A new node of a type: given text and attributes come before the defaults, all else is as the
defaults have it, and there are no children. -/
structure IsNew (d : Defaults) (type : String) (text : Option String)
    (attributes : List (String × String)) (n : Node) : Prop where
  plain : n = { d.build n.id type with
    fields := { (d.build n.id type).fields with
      text := n.fields.text, attributes := n.fields.attributes } }
  ownText : n.fields.text = text.or (d.build n.id type).fields.text
  ownAttributes : ∀ k, n.fields.attributes.get? k =
    ((OrderedMap.ofList attributes).get? k).or ((d.build n.id type).fields.attributes.get? k)
  childless : n.children = []

/-- The tree after `n` was put under a parent, at an index if there are as many children before it, and
else behind the last one: without the new node it is the old tree. -/
structure Added (t t' : Tree) (parentId : String) (index : Option Nat) (n : Node) : Prop where
  indexed : t'.Indexed
  fresh : n.id ∉ t.allIds
  rest : t'.root.without n.id = t.root
  placed : ∃ p front back, t.find? parentId = some p ∧ p.children = front ++ back ∧
    front.length = min (index.getD p.children.length) p.children.length ∧
    t'.find? parentId = some { p with children := front ++ n :: back }

/-- The node that an addition puts into the tree. -/
def newNode (d : Defaults) (id type : String) (text : Option String)
    (attributes : List (String × String)) : Node :=
  let plain := d.build id type
  { plain with
    fields := { plain.fields with
      text := text.or plain.fields.text
      attributes := plain.fields.attributes.insertAll attributes } }

theorem isNew_newNode (d : Defaults) (id type : String) (text : Option String)
    (attributes : List (String × String)) :
    IsNew d type text attributes (newNode d id type text attributes) :=
  ⟨rfl, rfl, fun k => OrderedMap.get?_insertAll attributes k _, rfl⟩

theorem exists_insertChild (p n : Node) (i : Nat) :
    ∃ front back, p.children = front ++ back ∧ front.length = min i p.children.length ∧
      p.insertChild i n = { p with children := front ++ n :: back } := by
  have hlength : (p.children.take (min i p.children.length)).length = min i p.children.length := by
    rw [List.length_take]
    omega
  have hsplit := (List.take_append_drop (min i p.children.length) p.children).symm
  refine ⟨_, _, hsplit, hlength, ?_⟩
  have hinsert : (p.insertChild _ n).children = _ := Node.children_insertChild p _ _ hsplit
  rw [hlength] at hinsert
  have hmin : p.insertChild i n = p.insertChild (min i p.children.length) n := by
    rw [Node.insertChild, Node.insertChild, Nat.min_assoc, Nat.min_self]
  rw [hmin, ← hinsert]
  rfl

theorem Indexed.add_eq (h : t.Indexed) {p : Node} (hp : t.find? parentId = some p)
    (hleaf : p.isLeaf = false) (d : Defaults) (type : String) (index : Option Nat)
    (text : Option String) (attributes : List (String × String)) :
    ∃ n t', t.add d parentId type index text attributes = (.ok n.id, t') ∧
      IsNew d type text attributes n ∧ t.Added t' parentId index n := by
  have hfresh : t.freshId.1 ∉ t.root.ids := fun hmem =>
    IdSource.fresh_notMem t.ids t.takenIds (h.mem_takenIds_iff.2 hmem)
  have hindexed : t.freshId.2.Indexed := ⟨h.root_id, h.nodup, h.parents_eq⟩
  have hadd : t.add d parentId type index text attributes =
      (.ok t.freshId.1, t.freshId.2.editNode parentId fun p =>
        p.insertChild (index.getD p.children.length) (newNode d t.freshId.1 type text attributes)) := by
    rw [add, hp]
    simp only [hleaf, Bool.false_eq_true, if_false]
    rfl
  have hids : (newNode d t.freshId.1 type text attributes).ids = [t.freshId.1] := rfl
  obtain ⟨hnew, hrest, -, -, p', hp', hplaced⟩ := hindexed.find?_inserted (Node.id_mem_of_find? hp)
    (newNode d t.freshId.1 type text attributes) (hids ▸ List.nodup_cons.2 ⟨List.not_mem_nil, List.nodup_nil⟩)
    (fun x hx hold => by
      rw [hids, List.mem_singleton] at hx
      exact hfresh (hx ▸ hold))
    (fun p => index.getD p.children.length) rfl
  cases hp.symm.trans hp'
  obtain ⟨front, back, hsplit, hlength, hinsert⟩ :=
    exists_insertChild p (newNode d t.freshId.1 type text attributes)
      (index.getD p.children.length)
  refine ⟨_, _, hadd, isNew_newNode d _ type text attributes, hnew, hfresh, hrest.trans ?_,
    p, front, back, hp, hsplit, hlength, hinsert ▸ hplaced⟩
  exact Node.without_of_notMem t.root (Node.notMem_ids_iff.1 hfresh).2

theorem Indexed.add_iff (h : t.Indexed) :
    (∃ id, (t.add d parentId type index text attributes).1 = .ok id) ↔
      ∃ p, t.find? parentId = some p ∧ p.isLeaf = false := by
  constructor
  · rintro ⟨id, hid⟩
    rw [add] at hid
    cases hp : t.find? parentId with
    | none =>
      rw [hp] at hid
      cases hid
    | some p =>
      cases hleaf : p.isLeaf with
      | false => exact ⟨p, rfl, hleaf⟩
      | true =>
        simp only [hp, hleaf, if_true] at hid
        cases hid
  · rintro ⟨p, hp, hleaf⟩
    obtain ⟨n, t', hadd, -⟩ := h.add_eq hp hleaf d type index text attributes
    exact ⟨n.id, by rw [hadd]⟩

theorem Added.delete {n : Node} (h : t.Indexed) (hadded : t.Added t' parentId index n) :
    t'.delete n.id = (.ok (), around t.root t'.ids) := by
  obtain ⟨p, front, back, hp, hsplit, hlength, hplaced⟩ := hadded.placed
  have hmem := (hadded.indexed.find?_child hplaced
    (List.mem_append_right front List.mem_cons_self)).1
  have hroot : n.id ≠ rootId := fun hid => hadded.fresh (hid ▸ h.root_mem)
  rw [hadded.indexed.delete_eq (Node.id_mem_of_find? hmem) hroot]
  show (_, around (t'.root.without n.id) t'.ids) = _
  rw [hadded.rest]

/-! ## Deletions -/

/-- The tree after the subtree of a node was deleted: the other nodes are what they were but for the
subtree, they come in the same order, and the index has the entries of the subtree no more. -/
structure Deleted (t t' : Tree) (id : String) : Prop where
  indexed : t'.Indexed
  root : t'.root = t.root.without id
  gone : ∀ x, x ∈ t'.allIds ↔ x ∈ t.allIds ∧ ¬ t.InSubtree id x
  order : t'.allIds.Sublist t.allIds
  kept : ∀ x n, t.find? x = some n → ¬ t.InSubtree id x → t'.find? x = some (n.without id)
  parents : ∀ x p, t'.parentId? x = some p ↔ t.parentId? x = some p ∧ ¬ t.InSubtree id x

theorem Indexed.without (h : t.Indexed) (id : String) : (t.without id).Indexed :=
  ⟨(Node.without_id id t.root).trans h.root_id, (Node.ids_without_sublist id t.root).nodup h.nodup, rfl⟩

theorem Indexed.notMem_without (h : t.Indexed) (hid : id ≠ rootId) :
    id ∉ (t.without id).root.ids := by
  refine Node.notMem_ids_iff.2 ⟨?_, Node.notMem_idsAll_without t.root⟩
  rw [(h.without id).root_id]
  exact Ne.symm hid

theorem Indexed.without_again (h : t.Indexed) (hid : id ≠ rootId) :
    (t.without id).root.without id = t.root.without id :=
  Node.without_of_notMem _ (Node.notMem_ids_iff.1 (h.notMem_without hid)).2

theorem Indexed.parentId?_without (h : t.Indexed) (hp : (t.without id).parentId? x = some parent) :
    t.parentId? x = some parent := by
  obtain ⟨p, c, hfind, -, hc, rfl, rfl⟩ := (h.without id).parent_holds hp
  obtain ⟨k, hk, rfl⟩ := Node.exists_of_mem_without t.root (Node.mem_nodes_of_find? hfind)
  rw [Node.without_eq, Node.withoutAll_eq] at hc
  obtain ⟨c', hc', rfl⟩ := List.mem_map.1 hc
  rw [Node.without_id, Node.without_id]
  exact h.parentId?_eq_some_iff.2
    (Node.mem_edges_iff.2 ⟨k, hk, rfl, c', (List.mem_filter.1 hc').1, rfl⟩)

/-- No node of the subtree is left: a node whose parent is gone is gone itself. -/
theorem Indexed.notMem_without_of_inSubtree (h : t.Indexed) (hid : id ≠ rootId)
    (hx : t.InSubtree id x) : x ∉ (t.without id).allIds := by
  obtain ⟨n, hn, hmem⟩ := hx
  refine Node.forall_ids_of_closed (S := fun x => x ∉ (t.without id).root.ids) n ?_ ?_ x hmem
  · intro m hm hgone c hc hleft
    have hnodes := Node.nodes_subset t.root n (Node.mem_nodes_of_find? hn) m hm
    have hparent := h.parentId?_eq_some_iff.2 (Node.mem_edges_iff.2 ⟨m, hnodes, rfl, c, hc, rfl⟩)
    obtain ⟨q, hq⟩ := ((h.without id).mem_ids_iff.1 hleft).resolve_left (h.ne_root hparent)
    obtain rfl := Option.some.inj ((h.parentId?_without hq).symm.trans hparent)
    exact hgone ((h.without id).parent_mem hq)
  · rw [Node.id_of_find? hn]
    exact h.notMem_without hid

theorem Indexed.find?_without (h : t.Indexed) (hid : id ≠ rootId) {n : Node}
    (hn : t.find? x = some n) (hx : ¬ t.InSubtree id x) :
    (t.without id).find? x = some (n.without id) := by
  have hout := (Node.notMem_ids_iff.1 (h.notMem_without hid)).2
  obtain ⟨m, hm, hsame⟩ := h.find?_of_without (h.without id) (h.without_again hid) hid hx hn
  have hbelow : id ∉ Node.idsAll m.children := fun hmem =>
    hout ((Node.ids_sublist_below (Node.mem_nodes_of_find? hm)).subset hmem)
  rw [hm, ← hsame, Node.without_of_notMem m hbelow]

theorem Indexed.deleted_without (h : t.Indexed) (hid : id ≠ rootId) :
    t.Deleted (t.without id) id := by
  have hgone : ∀ x, x ∈ (t.without id).allIds ↔ x ∈ t.allIds ∧ ¬ t.InSubtree id x := by
    refine fun x => ⟨fun hx => ⟨?_, fun hsub => h.notMem_without_of_inSubtree hid hsub hx⟩, ?_⟩
    · exact (Node.ids_without_sublist id t.root).subset hx
    · rintro ⟨hx, hout⟩
      obtain ⟨n, hn⟩ := Node.exists_find? hx
      exact Node.id_mem_of_find? (h.find?_without hid hn hout)
  refine ⟨h.without id, rfl, hgone, Node.ids_without_sublist id t.root,
    fun x n hn hout => h.find?_without hid hn hout, fun x p => ⟨fun hp => ?_, ?_⟩⟩
  · exact ⟨h.parentId?_without hp, ((hgone x).1 ((h.without id).mem_ids_iff.2 (.inr ⟨p, hp⟩))).2⟩
  · rintro ⟨hp, hout⟩
    have hne : x ≠ id := by
      rintro rfl
      obtain ⟨n, hn⟩ := Node.exists_find? (h.mem_ids_iff.2 (.inr ⟨p, hp⟩))
      exact hout ⟨n, hn, Node.id_of_find? hn ▸ n.id_mem_ids⟩
    exact h.parentId?_of_without (h.without id) (h.without_again hid) hid hout hne hp

theorem Indexed.delete_iff (h : t.Indexed) :
    (t.delete id).1 = .ok () ↔ id ∈ t.allIds ∧ id ≠ rootId := by
  constructor
  · intro hok
    rw [Tree.delete] at hok
    by_cases hid : id = rootId
    · rw [if_pos hid] at hok
      cases hok
    · rw [if_neg hid] at hok
      cases hp : t.parentId? id with
      | none =>
        rw [hp] at hok
        cases hok
      | some p => exact ⟨h.mem_ids_iff.2 (.inr ⟨p, hp⟩), hid⟩
  · rintro ⟨hmem, hid⟩
    rw [h.delete_eq hmem hid]

/-! ## Both together -/

/-- An addition succeeds just under a node of the tree that can have children, and puts one new node
there; deleting it gives the old nodes and the old index back. A deletion succeeds just for the nodes
other than the root, and takes one subtree out. -/
theorem Indexed.add_delete_spec (h : t.Indexed) :
    (∀ d parentId type index text attributes,
      ((∃ id, (t.add d parentId type index text attributes).1 = .ok id) ↔
        ∃ p, t.find? parentId = some p ∧ p.isLeaf = false) ∧
      ∀ id t', t.add d parentId type index text attributes = (.ok id, t') →
        ∃ n, n.id = id ∧ IsNew d type text attributes n ∧ t.Added t' parentId index n ∧
          ∃ u, t'.delete id = (.ok (), u) ∧ u.root = t.root ∧ u.parents = t.parents) ∧
    ∀ id, ((t.delete id).1 = .ok () ↔ id ∈ t.allIds ∧ id ≠ rootId) ∧
      ((t.delete id).1 = .ok () → t.Deleted (t.delete id).2 id) := by
  refine ⟨fun d parentId type index text attributes => ⟨h.add_iff, fun id t' hadd => ?_⟩,
    fun id => ⟨h.delete_iff, fun hok => ?_⟩⟩
  · obtain ⟨p, hp, hleaf⟩ := h.add_iff.1 ⟨id, congrArg Prod.fst hadd⟩
    obtain ⟨n, u, hmade, hnew, hadded⟩ := h.add_eq hp hleaf d type index text attributes
    cases hadd.symm.trans hmade
    exact ⟨n, rfl, hnew, hadded, _, hadded.delete h, rfl, h.parents_eq.symm⟩
  · obtain ⟨hmem, hid⟩ := h.delete_iff.1 hok
    rw [h.delete_eq hmem hid]
    exact h.deleted_without hid

/-- A list of two items and a text behind it. -/
def captionedList : Tree :=
  around
    { Node.root with children :=
      [{ Node.ofType "list" "ul" with children := [.ofType "one" "li", .ofType "two" "li"] },
        .ofType "caption" textType] }
    ⟨"item", 0⟩

theorem add_delete_captionedList :
    (∃ id t' n, captionedList.add .standard "list" "li" (some 1) (some "new") [("title", "x")] =
        (.ok id, t') ∧
      IsNew .standard "li" (some "new") [("title", "x")] n ∧
      captionedList.Added t' "list" (some 1) n ∧
      ∃ u, t'.delete id = (.ok (), u) ∧ u.root = captionedList.root ∧
        u.parents = captionedList.parents) ∧
    (¬ ∃ id, (captionedList.add .standard "caption" "b" none none []).1 = .ok id) ∧
    captionedList.Deleted (captionedList.delete "list").2 "list" ∧
    (captionedList.delete rootId).1 ≠ .ok () := by
  have h : captionedList.Indexed := ⟨rfl, by decide, rfl⟩
  obtain ⟨hadd, hdelete⟩ := h.add_delete_spec
  have hcaption : captionedList.find? "caption" = some (.ofType "caption" textType) := rfl
  refine ⟨?_, ?_, (hdelete "list").2 ((hdelete "list").1.2 ⟨by decide, by decide⟩), ?_⟩
  · obtain ⟨hok, hadded⟩ := hadd .standard "list" "li" (some 1) (some "new") [("title", "x")]
    obtain ⟨id, hid⟩ := hok.2 ⟨_, rfl, by decide⟩
    obtain ⟨n, -, hnew, hplaced, hback⟩ := hadded id _ (Prod.ext hid rfl)
    exact ⟨id, _, n, Prod.ext hid rfl, hnew, hplaced, hback⟩
  · intro hok
    obtain ⟨p, hp, hleaf⟩ := (hadd .standard "caption" "b" none none []).1.1 hok
    cases hcaption.symm.trans hp
    revert hleaf
    decide
  · exact fun hok => ((hdelete rootId).1.1 hok).2 rfl

end Tree

end PageEditor
