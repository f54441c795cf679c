import PageEditor.Proofs.Tree.Moves

/-!
# Duplicates

What a duplicate adds to a tree and that nothing else changes. A copy differs from its original only in
its ids, which no node had before, and in that it remembers no text. Deleting the copies gives the old
tree back: a node that is deleted is the tree without its subtree, and a subtree that was put in is all
that is then missing.
-/
set_option autoImplicit false

namespace PageEditor

namespace Node

/-! ## Nodes but for their ids -/

mutual

/-- The node with the names of all nodes in it struck out. -/
def nameless : Node → Node
  | ⟨_, fields, component, origin, children⟩ => ⟨"", fields, component, origin, namelessAll children⟩

def namelessAll : List Node → List Node
  | [] => []
  | n :: ns => n.nameless :: namelessAll ns

end

theorem namelessAll_eq_map (ns : List Node) : namelessAll ns = ns.map nameless := by
  induction ns with
  | nil => rfl
  | cons n ns ih => rw [namelessAll, List.map_cons, ih]

theorem forgetAll_eq_map (ns : List Node) : forgetAll ns = ns.map forget := by
  induction ns with
  | nil => rfl
  | cons n ns ih => rw [forgetAll, List.map_cons, ih]

mutual

/-- A copy is its original without memory of a text, but for the ids. -/
theorem nameless_copy (taken : List String) (g : IdSource) :
    (n : Node) → (copy taken g n).1.nameless = n.forget.nameless
  | ⟨id, fields, component, origin, children⟩ => by
    rw [forget, nameless, ← namelessAll_copyAll taken (g.fresh taken).2 children]
    rfl

theorem namelessAll_copyAll (taken : List String) (g : IdSource) :
    (ns : List Node) → namelessAll (copyAll taken g ns).1 = namelessAll (forgetAll ns)
  | [] => rfl
  | n :: ns => by
    rw [forgetAll, namelessAll, ← nameless_copy taken g n,
      ← namelessAll_copyAll taken (copy taken g n).2 ns]
    rfl

end

/-! ## Putting a node behind another one -/

mutual

/-- The node with `extra` right behind the node below it that has that id. -/
def insertBehind (id : String) (extra : Node) : Node → Node
  | ⟨own, fields, component, origin, children⟩ =>
    ⟨own, fields, component, origin, insertBehindIn id extra children⟩

def insertBehindIn (id : String) (extra : Node) : List Node → List Node
  | [] => []
  | n :: ns =>
    if n.id = id then n :: extra :: ns
    else insertBehind id extra n :: insertBehindIn id extra ns

end

variable {id x : String} {extra : Node}

theorem insertBehind_eq (id : String) (extra n : Node) :
    insertBehind id extra n = { n with children := insertBehindIn id extra n.children } := by
  cases n
  rw [insertBehind]

theorem ids_sublist_below {n m : Node} (hm : m ∈ n.nodes) :
    (idsAll m.children).Sublist (idsAll n.children) := by
  rw [nodes_eq] at hm
  rcases List.mem_cons.1 hm with rfl | hm
  · exact List.Sublist.refl _
  · have hsub := ids_sublist_nodesAll n.children hm
    rw [ids_eq] at hsub
    exact (List.sublist_cons_self _ _).trans hsub

theorem ids_append (n : Node) (ns : List Node) :
    ({ n with children := n.children ++ ns } : Node).ids = n.ids ++ idsAll ns := by
  simp [ids_eq, idsAll_eq_flatMap]

theorem notMem_ids_iff {n : Node} : x ∉ n.ids ↔ n.id ≠ x ∧ x ∉ idsAll n.children := by
  rw [ids_eq, List.mem_cons, not_or, ne_comm]

mutual

theorem insertBehind_of_notMem : (n : Node) → id ∉ idsAll n.children → insertBehind id extra n = n
  | ⟨own, fields, component, origin, children⟩, h => by
    rw [insertBehind, insertBehindIn_of_notMem children h]

theorem insertBehindIn_of_notMem : (ns : List Node) → id ∉ idsAll ns →
    insertBehindIn id extra ns = ns
  | [], _ => by rw [insertBehindIn]
  | n :: ns, h => by
    rw [idsAll, List.mem_append, not_or, notMem_ids_iff] at h
    rw [insertBehindIn, if_neg h.1.1, insertBehind_of_notMem n h.1.2,
      insertBehindIn_of_notMem ns h.2]

end

theorem insertBehindIn_append {front back : List Node} {n : Node} (hfront : n.id ∉ idsAll front) :
    insertBehindIn n.id extra (front ++ n :: back) = front ++ n :: extra :: back := by
  induction front with
  | nil => rw [List.nil_append, insertBehindIn, if_pos rfl, List.nil_append]
  | cons m front ih =>
    rw [idsAll, List.mem_append, not_or, notMem_ids_iff] at hfront
    rw [List.cons_append, insertBehindIn, if_neg hfront.1.1, insertBehind_of_notMem m hfront.1.2,
      ih hfront.2, List.cons_append]

section Parent

variable {p : String} {m : Node} {f : Node → Node} (hm : id ∈ idsAll m.children)
  (hf : f m = insertBehind id extra m)

include hm hf

mutual

/-- Where the ids are different, it is enough to change the parent of the node. -/
theorem modify?_insertBehind : (n : Node) → n.ids.Nodup → n.find? p = some m →
    n.modify? p f = some (insertBehind id extra n)
  | ⟨own, fields, component, origin, children⟩, hnodup, hfind => by
    rw [find?] at hfind
    rw [modify?]
    by_cases hown : own = p
    · rw [if_pos hown] at hfind ⊢
      cases hfind
      rw [hf]
    · rw [if_neg hown] at hfind ⊢
      rw [ids, List.nodup_cons] at hnodup
      rw [modifyIn?_insertBehind children hnodup.2 hfind, insertBehind]
      rfl

theorem modifyIn?_insertBehind : (ns : List Node) → (idsAll ns).Nodup → findIn? p ns = some m →
    modifyIn? p f ns = some (insertBehindIn id extra ns)
  | [], _, hfind => by cases hfind
  | n :: ns, hnodup, hfind => by
    rw [findIn?] at hfind
    rw [idsAll, List.nodup_append] at hnodup
    obtain ⟨hn, hns, hdisjoint⟩ := hnodup
    rw [modifyIn?, insertBehindIn]
    cases hfound : n.find? p with
    | some m' =>
      rw [hfound, Option.some_or] at hfind
      cases hfind
      -- The id is below `n`, and so neither its own nor that of a node behind it.
      have hbelow := (ids_sublist_below (mem_nodes_of_find? hfound)).subset hm
      have hne : n.id ≠ id := by
        rintro rfl
        rw [ids_eq, List.nodup_cons] at hn
        exact hn.1 hbelow
      have hout : id ∉ idsAll ns := fun hmem =>
        hdisjoint id (by rw [ids_eq]; exact List.mem_cons_of_mem _ hbelow) id hmem rfl
      rw [modify?_insertBehind n hn hfound, if_neg hne, insertBehindIn_of_notMem ns hout]
    | none =>
      rw [hfound, Option.none_or] at hfind
      have hnodes : m ∈ nodesAll ns := by
        rw [findIn?_eq_find?] at hfind
        exact List.mem_of_find?_eq_some hfind
      have hmem : id ∈ idsAll ns := (ids_sublist_nodesAll ns hnodes).subset (by
        rw [ids_eq]
        exact List.mem_cons_of_mem _ hm)
      obtain ⟨hne, hbelow⟩ := notMem_ids_iff.1 fun hn => hdisjoint id hn id hmem rfl
      rw [(modify?_eq_none_iff p _ n).2 hfound, modifyIn?_insertBehind ns hns hfind,
        if_neg hne, insertBehind_of_notMem n hbelow]
      rfl

end

end Parent

theorem insertChild_behind {p n : Node} (hn : n ∈ p.children) (hnodup : p.ids.Nodup) :
    p.insertChild ((p.childIds.findIdx? (· == n.id)).getD 0 + 1) extra =
      insertBehind n.id extra p := by
  obtain ⟨front, c, back, hsplit, hc, hindex⟩ := exists_findIdx? (List.mem_map_of_mem hn)
  rw [ids_eq, List.nodup_cons] at hnodup
  have hall := hnodup.2
  rw [hsplit, idsAll_eq_flatMap, List.flatMap_append, ← idsAll_eq_flatMap, ← idsAll_eq_flatMap,
    List.nodup_append] at hall
  have hfront : c.id ∉ idsAll front := fun hmem =>
    hall.2.2 _ hmem _ (List.mem_append_left _ c.id_mem_ids) rfl
  have hindex : p.childIds.findIdx? (· == n.id) = some front.length := by
    rw [childIds, List.findIdx?_map]
    exact hindex
  have hchildren : p.children = (front ++ [c]) ++ back := by simp [hsplit]
  have hplace : (p.insertChild (front ++ [c]).length extra).children =
      (front ++ [c]) ++ extra :: back := children_insertChild p _ back hchildren
  rw [List.length_append, List.length_singleton] at hplace
  rw [hindex, Option.getD_some, insertBehind_eq, ← hc, hsplit, insertBehindIn_append hfront]
  show ({ p with children := (p.insertChild (front.length + 1) extra).children } : Node) = _
  rw [hplace, List.append_assoc, List.singleton_append]

/-! ## Taking it out again -/

mutual

theorem without_of_notMem : (n : Node) → id ∉ idsAll n.children → n.without id = n
  | ⟨own, fields, component, origin, children⟩, h => by
    rw [without, withoutAll_of_notMem children h]

theorem withoutAll_of_notMem : (ns : List Node) → id ∉ idsAll ns → withoutAll id ns = ns
  | [], _ => by rw [withoutAll]
  | n :: ns, h => by
    rw [idsAll, List.mem_append, not_or, notMem_ids_iff] at h
    rw [withoutAll, if_neg h.1.1, without_of_notMem n h.1.2, withoutAll_of_notMem ns h.2]

end

theorem without_dropChildren (id : String) (n : Node) :
    (n.dropChildren id).without id = n.without id := by
  rw [without_eq, without_eq id n, withoutAll_eq, withoutAll_eq]
  show ({ n with children := _ } : Node) = _
  rw [dropChildren, List.filter_filter]
  simp only [Bool.and_self]

end Node

namespace Tree

open Node (idsAll)

variable {t : Tree} {id : String}

/-! ## Deleting -/

theorem Indexed.delete_eq (h : t.Indexed) (hid : id ∈ t.allIds) (hroot : id ≠ rootId) :
    t.delete id = (.ok (), t.without id) := by
  obtain ⟨parent, hparent⟩ := (h.mem_ids_iff.1 hid).resolve_left hroot
  obtain ⟨p, c, hp, _, hc, rfl, _⟩ := h.parent_holds hparent
  have hperm := editNode_ids_perm hp (p.dropChildren_ids_perm c.id)
  have hgone : c.id ∈ idsAll (p.children.filter fun k => !(k.id != c.id)) := by
    rw [Node.idsAll_eq_map]
    exact List.mem_map_of_mem (Node.mem_nodesAll (List.mem_filter.2 ⟨hc, by simp⟩))
  have hout : c.id ∉ (t.root.modify parent (·.dropChildren c.id)).ids := fun hmem =>
    (List.nodup_append.1 (hperm.nodup_iff.2 h.nodup)).2.2 _ hmem _ hgone rfl
  have hwithout : t.root.modify parent (·.dropChildren c.id) = t.root.without c.id := by
    rw [← Node.without_modify (Node.without_dropChildren c.id) parent t.root]
    exact (Node.without_of_notMem _ (Node.notMem_ids_iff.1 hout).2).symm
  rw [delete, if_neg hroot, hparent]
  show (Except.ok (), t.edit (Node.modify parent _)) = (Except.ok (), t.edit _)
  rw [edit, hwithout]
  rfl

/-- Deletes nodes one after the other. -/
def deleteAll (t : Tree) : List String → Except EditError Tree
  | [] => .ok t
  | id :: ids =>
    match t.delete id with
    | (.ok _, t) => t.deleteAll ids
    | (.error e, _) => .error e

theorem without_around (root : Node) (ids : IdSource) (id : String) :
    (around root ids).without id = around (root.without id) ids := rfl

theorem deleteAll_cons {u : Tree} {ids : List String} (h : t.delete id = (.ok (), u)) :
    t.deleteAll (id :: ids) = u.deleteAll ids := by
  rw [deleteAll, h]

/-! ## Duplicating -/

open Node (namelessAll nodesAll)

/-- The nodes are those of `originals` but for their ids, which are new to the tree, and but for their
memory of a text, which they do not have. -/
structure Copied (t : Tree) (originals copies : List Node) : Prop where
  same : copies.map Node.nameless = originals.map fun n => n.forget.nameless
  fresh : ∀ x ∈ idsAll copies, x ∉ t.allIds
  nodup : (idsAll copies).Nodup

/-- The tree after the node `n` was duplicated: the copy stands right behind the node, and the copies of
the root's children behind the last of them. -/
structure Duplicated (t t' : Tree) (n : Node) (copies : List Node) : Prop where
  indexed : t'.Indexed
  copied : t.Copied (if n.id = rootId then n.children else [n]) copies
  root : n.id = rootId → t'.root = { t.root with children := t.root.children ++ copies }
  below : n.id ≠ rootId → ∃ c, copies = [c] ∧ t'.root = Node.insertBehind n.id c t.root

theorem Indexed.copied_copyAll (h : t.Indexed) (ns : List Node) :
    t.Copied ns (Node.copyAll t.takenIds t.ids ns).1 := by
  refine ⟨?_, fun x hx hold => ?_, (Node.drawn_copyAll t.takenIds t.ids ns).nodup⟩
  · have hsame := Node.namelessAll_copyAll t.takenIds t.ids ns
    rw [Node.namelessAll_eq_map, Node.namelessAll_eq_map, Node.forgetAll_eq_map, List.map_map] at hsame
    exact hsame
  · exact Node.copyAll_notMem t.takenIds t.ids ns x hx (h.mem_takenIds_iff.2 hold)

theorem Indexed.root_of_find? (h : t.Indexed) {n : Node} (hn : t.find? id = some n)
    (hroot : id = rootId) : n = t.root := by
  refine h.eq_of_id (Node.mem_nodes_of_find? hn) (Node.mem_nodes_self _) ?_
  rw [Node.id_of_find? hn, hroot, h.root_id]

theorem Indexed.duplicate_root (h : t.Indexed) :
    ∃ copies ids, t.duplicate rootId = (.ok (copies.map (·.id)),
        around { t.root with children := t.root.children ++ copies } ids) ∧
      t.Copied t.root.children copies ∧ (t.root.ids ++ idsAll copies).Nodup := by
  obtain ⟨n, hn⟩ := Node.exists_find? h.root_mem
  obtain rfl := h.root_of_find? hn rfl
  have hfind : t.find? rootId = some t.root := hn
  have hroot : t.root.isRoot = true := by rw [Node.isRoot, h.root_id, beq_self_eq_true]
  have hcopied := h.copied_copyAll t.root.children
  refine ⟨_, (Node.copyAll t.takenIds t.ids t.root.children).2, ?_, hcopied, ?_⟩
  · simp only [duplicate, hfind, hroot, if_true]
    rfl
  · exact List.nodup_append.2
      ⟨h.nodup, hcopied.nodup, fun x hx y hy hxy => hcopied.fresh y hy (hxy ▸ hx)⟩

theorem Indexed.duplicate_below (h : t.Indexed) {n : Node} (hn : t.find? id = some n)
    (hid : id ≠ rootId) :
    ∃ c t', t.duplicate id = (.ok [c.id], t') ∧ t.Copied [n] [c] ∧ t'.Indexed ∧
      t'.root = Node.insertBehind id c t.root ∧ t'.delete c.id = (.ok (), around t.root t'.ids) := by
  obtain ⟨parent, hparent⟩ := (h.mem_ids_iff.1 (Node.id_mem_of_find? hn)).resolve_left hid
  obtain ⟨p, n', hp, hn', hmem, hnid, _⟩ := h.parent_holds hparent
  cases hn.symm.trans hn'
  have hroot : n.isRoot = false := by rw [Node.isRoot, hnid, beq_false_of_ne hid]
  have hindex : t.indexInParent? id = p.childIds.findIdx? (· == n.id) := by
    rw [indexInParent?, parent?, hparent, Option.bind_some, hp, Option.bind_some, hnid]
  have hnodup := (Node.ids_sublist_ids t.root (Node.mem_nodes_of_find? hp)).nodup h.nodup
  have hbelow : id ∈ idsAll p.children := by
    rw [← hnid, Node.idsAll_eq_map]
    exact List.mem_map_of_mem (Node.mem_nodesAll hmem)
  generalize hcopy : n.copy t.takenIds t.ids = made
  obtain ⟨c, ids⟩ := made
  have hcopied : t.Copied [n] [c] := by
    have hone := h.copied_copyAll [n]
    simpa only [Node.copyAll, hcopy] using hone
  have hplace : p.insertChild ((p.childIds.findIdx? (· == n.id)).getD 0 + 1) c =
      Node.insertBehind n.id c p := Node.insertChild_behind hmem hnodup
  rw [← hindex, hnid] at hplace
  have hmodify := Node.modify?_insertBehind (f := fun p => p.insertChild _ _) hbelow hplace
    t.root h.nodup hp
  have hinsert : ({ t with ids } : Tree).editNode parent
      (·.insertChild ((t.indexInParent? id).getD 0 + 1) c) =
        around (Node.insertBehind id c t.root) ids := by
    show around ((t.root.modify? parent _).getD t.root) ids = _
    rw [hmodify, Option.getD_some]
  have hindexed : ({ t with ids } : Tree).Indexed := ⟨h.root_id, h.nodup, h.parents_eq⟩
  obtain ⟨hnew, hwithout, hfound, -⟩ := hindexed.find?_inserted (h.parent_mem hparent) c
    (by simpa [idsAll] using hcopied.nodup)
    (fun x hx => hcopied.fresh x (by simpa [idsAll] using hx)) _ hinsert.symm
  have hout : c.id ∉ t.root.ids := hcopied.fresh _ (by simp [idsAll, c.id_mem_ids])
  refine ⟨c, _, ?_, hcopied, hnew, rfl, ?_⟩
  · simp only [duplicate, hn, hroot, hparent, hcopy, Bool.false_eq_true, if_false, hinsert]
  · rw [hnew.delete_eq (Node.id_mem_of_find? hfound) fun hc => hout (hc ▸ h.root_mem), without_around]
    exact congrArg (fun root => (Except.ok (), around root ids))
      (hwithout.trans (Node.without_of_notMem t.root (Node.notMem_ids_iff.1 hout).2))

/-! ## Duplicates deleted -/

/-- What was put behind the children of the root is deleted one by one. -/
theorem deleteAll_appended {root : Node} (hroot : root.id = rootId) (ids : IdSource)
    {copies : List Node} (hnodup : (root.ids ++ idsAll copies).Nodup) :
    (around { root with children := root.children ++ copies } ids).deleteAll (copies.map (·.id)) =
      .ok (around root ids) := by
  induction copies with
  | nil =>
    cases root
    simp only [List.append_nil, List.map_nil, deleteAll]
  | cons c cs ih =>
    have hall := root.ids_append (c :: cs)
    rw [idsAll] at hnodup hall
    have hmem : c.id ∈ root.ids ++ (c.ids ++ idsAll cs) :=
      List.mem_append_right _ (List.mem_append_left _ c.id_mem_ids)
    obtain ⟨-, hnew, hapart⟩ := List.nodup_append.1 hnodup
    obtain ⟨-, -, hbehind⟩ := List.nodup_append.1 hnew
    have hout : c.id ∉ root.ids := fun hmem =>
      hapart _ hmem _ (List.mem_append_left _ c.id_mem_ids) rfl
    have hrest : c.id ∉ idsAll cs := fun hmem => hbehind _ c.id_mem_ids _ hmem rfl
    have hne : c.id ≠ rootId := fun hc => hout (hc.trans hroot.symm ▸ root.id_mem_ids)
    rw [← hall] at hnodup hmem
    have hindexed : (around { root with children := root.children ++ c :: cs } ids).Indexed :=
      ⟨hroot, hnodup, rfl⟩
    have hwithout : ({ root with children := root.children ++ c :: cs } : Node).without c.id =
        { root with children := root.children ++ cs } := by
      have hfront := Node.withoutAll_of_notMem root.children (Node.notMem_ids_iff.1 hout).2
      have hback := Node.withoutAll_of_notMem cs hrest
      rw [Node.withoutAll_eq] at hfront hback
      rw [Node.without_eq, Node.withoutAll_eq]
      simp [hfront, hback]
    rw [hall] at hnodup
    have hleft := hnodup.sublist
      ((List.sublist_append_right c.ids (idsAll cs)).append_left root.ids)
    rw [List.map_cons, deleteAll_cons (hindexed.delete_eq hmem hne), without_around, hwithout,
      ih hleft]

/-! ## The whole of a duplicate -/

/-- A node of the tree can always be duplicated. The copy is put behind it and nothing else changes, and
the old nodes are left when the copies are deleted. -/
theorem Indexed.duplicate_spec (h : t.Indexed) (hid : id ∈ t.allIds) :
    ∃ n copies t', t.find? id = some n ∧ t.duplicate id = (.ok (copies.map (·.id)), t') ∧
      t.Duplicated t' n copies ∧
      ∃ u, t'.deleteAll (copies.map (·.id)) = .ok u ∧ u.root = t.root ∧ u.parents = t.parents := by
  obtain ⟨n, hn⟩ := Node.exists_find? hid
  by_cases hroot : id = rootId
  · obtain rfl := h.root_of_find? hn hroot
    subst hroot
    obtain ⟨copies, ids, hmade, hcopied, hnodup⟩ := h.duplicate_root
    have hindexed : (around { t.root with children := t.root.children ++ copies } ids).Indexed :=
      ⟨h.root_id, (t.root.ids_append copies).symm ▸ hnodup, rfl⟩
    refine ⟨t.root, copies, _, hn, hmade, ⟨hindexed, ?_, fun _ => rfl, ?_⟩, around t.root ids,
      deleteAll_appended h.root_id ids hnodup, rfl, h.parents_eq.symm⟩
    · rwa [if_pos h.root_id]
    · exact fun hne => absurd h.root_id hne
  · obtain rfl := Node.id_of_find? hn
    obtain ⟨c, t', hmade, hcopied, hindexed, hbehind, hdelete⟩ := h.duplicate_below hn hroot
    refine ⟨n, [c], t', hn, hmade,
      ⟨hindexed, ?_, fun hn => absurd hn hroot, fun _ => ⟨c, rfl, hbehind⟩⟩,
      around t.root t'.ids, ?_, rfl, h.parents_eq.symm⟩
    · rwa [if_neg hroot]
    · rw [List.map_singleton, deleteAll_cons hdelete, deleteAll]

/-- A list with one item, with ids that the source would give out next. -/
def numberedList : Tree :=
  around
    { Node.root with children :=
      [{ Node.ofType "item-1" "ul" with children := [.ofType "item-3" "li"] }] }
    ⟨"item", 0⟩

theorem duplicated_numberedList :
    (numberedList.duplicate "item-1").1.toOption = some ["item-2"] ∧
      ∃ n copies t', numberedList.find? "item-1" = some n ∧
        numberedList.duplicate "item-1" = (.ok (copies.map (·.id)), t') ∧
        numberedList.Duplicated t' n copies ∧
        ∃ u, t'.deleteAll (copies.map (·.id)) = .ok u ∧ u.root = numberedList.root ∧
          u.parents = numberedList.parents := by
  have h : numberedList.Indexed := ⟨rfl, by decide, rfl⟩
  exact ⟨by decide +kernel, h.duplicate_spec (by decide)⟩

end Tree

end PageEditor
