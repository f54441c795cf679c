import PageEditor.Tree

/-!
# The nodes of a tree as a list

A node with all the nodes below it, parents first. The ids, the search for an id and the index of
parents are those of this list, and a change of one node changes the ids by what it changes there.
-/
set_option autoImplicit false

namespace PageEditor.Node

/-! ## The list -/

mutual

/-- The node and all nodes below it, parents before children. -/
def nodes : Node → List Node
  | ⟨id, fields, component, origin, children⟩ =>
    ⟨id, fields, component, origin, children⟩ :: nodesAll children

def nodesAll : List Node → List Node
  | [] => []
  | n :: ns => n.nodes ++ nodesAll ns

end

theorem nodes_eq (n : Node) : n.nodes = n :: nodesAll n.children := by
  cases n
  rw [nodes]

theorem ids_eq (n : Node) : n.ids = n.id :: idsAll n.children := by
  cases n
  rw [ids]

theorem edges_eq (n : Node) :
    n.edges = n.children.map (fun c => (c.id, n.id)) ++ edgesAll n.children := by
  cases n
  rw [edges]

theorem mem_nodes_self (n : Node) : n ∈ n.nodes := by
  rw [nodes_eq]
  exact List.mem_cons_self

theorem mem_nodes_of_below {n m : Node} (h : m ∈ nodesAll n.children) : m ∈ n.nodes := by
  rw [nodes_eq]
  exact List.mem_cons_of_mem n h

mutual

theorem ids_eq_map : (n : Node) → n.ids = n.nodes.map (·.id)
  | ⟨id, fields, component, origin, children⟩ => by
    rw [ids, nodes, List.map_cons, idsAll_eq_map children]

theorem idsAll_eq_map : (ns : List Node) → idsAll ns = (nodesAll ns).map (·.id)
  | [] => rfl
  | n :: ns => by
    rw [idsAll, nodesAll, List.map_append, ids_eq_map n, idsAll_eq_map ns]

end

mutual

theorem find?_eq_find? (id : String) : (n : Node) → n.find? id = n.nodes.find? (·.id == id)
  | ⟨own, fields, component, origin, children⟩ => by
    rw [find?, nodes, List.find?_cons, findIn?_eq_find? id children]
    by_cases h : own = id
    · simp [h]
    · simp [h, beq_false_of_ne h]

theorem findIn?_eq_find? (id : String) :
    (ns : List Node) → findIn? id ns = (nodesAll ns).find? (·.id == id)
  | [] => rfl
  | n :: ns => by
    rw [findIn?, nodesAll, List.find?_append, find?_eq_find? id n, findIn?_eq_find? id ns]

end

mutual

theorem edges_eq_flatMap : (n : Node) →
    n.edges = n.nodes.flatMap fun m => m.children.map fun c => (c.id, m.id)
  | ⟨id, fields, component, origin, children⟩ => by
    rw [edges, nodes, List.flatMap_cons, edgesAll_eq_flatMap children]

theorem edgesAll_eq_flatMap : (ns : List Node) →
    edgesAll ns = (nodesAll ns).flatMap fun m => m.children.map fun c => (c.id, m.id)
  | [] => rfl
  | n :: ns => by
    rw [edgesAll, nodesAll, List.flatMap_append, edges_eq_flatMap n, edgesAll_eq_flatMap ns]

end

/-! ## Searching -/

theorem id_of_find? {n m : Node} {id : String} (h : n.find? id = some m) : m.id = id := by
  rw [find?_eq_find?] at h
  simpa using List.find?_some h

theorem mem_nodes_of_find? {n m : Node} {id : String} (h : n.find? id = some m) : m ∈ n.nodes := by
  rw [find?_eq_find?] at h
  exact List.mem_of_find?_eq_some h

theorem find?_isSome_iff {n : Node} {id : String} : (n.find? id).isSome ↔ id ∈ n.ids := by
  rw [find?_eq_find?, List.find?_isSome, ids_eq_map, List.mem_map]
  simp

theorem exists_find? {n : Node} {id : String} (h : id ∈ n.ids) : ∃ m, n.find? id = some m :=
  Option.isSome_iff_exists.1 (find?_isSome_iff.2 h)

theorem id_mem_of_find? {n m : Node} {id : String} (h : n.find? id = some m) : id ∈ n.ids :=
  find?_isSome_iff.1 (by rw [h]; rfl)

theorem find?_of_mem {n m : Node} (hnodup : n.ids.Nodup) (h : m ∈ n.nodes) :
    n.find? m.id = some m := by
  rw [ids_eq_map] at hnodup
  rw [find?_eq_find?]
  generalize n.nodes = ns at hnodup h
  induction ns with
  | nil => cases h
  | cons x ns ih =>
    rw [List.map_cons, List.nodup_cons] at hnodup
    rcases List.mem_cons.1 h with rfl | h
    · simp
    · have hne : x.id ≠ m.id := fun hx => hnodup.1 (hx ▸ List.mem_map.2 ⟨m, h, rfl⟩)
      rw [List.find?_cons_of_neg (by simpa using hne)]
      exact ih hnodup.2 h

theorem ids_sublist_idsAll {n : Node} {ns : List Node} (h : n ∈ ns) : n.ids.Sublist (idsAll ns) := by
  induction ns with
  | nil => cases h
  | cons m ns ih =>
    rw [idsAll]
    rcases List.mem_cons.1 h with rfl | h
    · exact List.sublist_append_left _ _
    · exact (ih h).trans (List.sublist_append_right _ _)

theorem nodup_of_child {n c : Node} (hnodup : n.ids.Nodup) (h : c ∈ n.children) : c.ids.Nodup := by
  rw [ids_eq, List.nodup_cons] at hnodup
  exact (ids_sublist_idsAll h).nodup hnodup.2

/-! ## Nodes below nodes -/

mutual

theorem nodes_subset : (n : Node) → ∀ m ∈ n.nodes, ∀ k ∈ m.nodes, k ∈ n.nodes
  | ⟨id, fields, component, origin, children⟩, m, hm, k, hk => by
    rw [nodes] at hm
    rcases List.mem_cons.1 hm with rfl | hm
    · exact hk
    · rw [nodes]
      exact List.mem_cons_of_mem _ (nodesAll_subset children m hm k hk)

theorem nodesAll_subset : (ns : List Node) → ∀ m ∈ nodesAll ns, ∀ k ∈ m.nodes, k ∈ nodesAll ns
  | [], m, hm, _, _ => by cases hm
  | n :: ns, m, hm, k, hk => by
    rw [nodesAll] at hm ⊢
    rcases List.mem_append.1 hm with hm | hm
    · exact List.mem_append_left _ (nodes_subset n m hm k hk)
    · exact List.mem_append_right _ (nodesAll_subset ns m hm k hk)

end

mutual

theorem ids_sublist_ids {m : Node} : (n : Node) → m ∈ n.nodes → m.ids.Sublist n.ids
  | ⟨own, fields, component, origin, children⟩, hm => by
    rw [nodes] at hm
    rcases List.mem_cons.1 hm with rfl | hm
    · exact List.Sublist.refl _
    · rw [ids]
      exact (ids_sublist_nodesAll children hm).cons own

theorem ids_sublist_nodesAll {m : Node} : (ns : List Node) → m ∈ nodesAll ns →
    m.ids.Sublist (idsAll ns)
  | [], hm => by cases hm
  | n :: ns, hm => by
    rw [nodesAll] at hm
    rw [idsAll]
    rcases List.mem_append.1 hm with hm | hm
    · exact (ids_sublist_ids n hm).trans (List.sublist_append_left _ _)
    · exact (ids_sublist_nodesAll ns hm).trans (List.sublist_append_right _ _)

end

theorem mem_nodesAll {n : Node} {ns : List Node} (h : n ∈ ns) : n ∈ nodesAll ns := by
  induction ns with
  | nil => cases h
  | cons m ns ih =>
    rw [nodesAll]
    rcases List.mem_cons.1 h with rfl | h
    · exact List.mem_append_left _ n.mem_nodes_self
    · exact List.mem_append_right _ (ih h)

theorem mem_nodes_of_child {n c : Node} (h : c ∈ n.children) : c ∈ n.nodes := by
  exact mem_nodes_of_below (mem_nodesAll h)

mutual

theorem forall_ids_of_closed {S : String → Prop} : (n : Node) →
    (∀ m ∈ n.nodes, S m.id → ∀ c ∈ m.children, S c.id) → S n.id → ∀ x ∈ n.ids, S x
  | ⟨id, fields, component, origin, children⟩, hclosed, hid, x, hx => by
    rw [ids] at hx
    rw [nodes] at hclosed
    rcases List.mem_cons.1 hx with rfl | hx
    · exact hid
    · exact forall_idsAll_of_closed children
        (fun m hm => hclosed m (List.mem_cons_of_mem _ hm))
        (hclosed _ List.mem_cons_self hid) x hx

theorem forall_idsAll_of_closed {S : String → Prop} : (ns : List Node) →
    (∀ m ∈ nodesAll ns, S m.id → ∀ c ∈ m.children, S c.id) → (∀ n ∈ ns, S n.id) →
    ∀ x ∈ idsAll ns, S x
  | [], _, _, x, hx => by cases hx
  | n :: ns, hclosed, hids, x, hx => by
    rw [idsAll] at hx
    rw [nodesAll] at hclosed
    rcases List.mem_append.1 hx with hx | hx
    · exact forall_ids_of_closed n (fun m hm => hclosed m (List.mem_append_left _ hm))
        (hids n List.mem_cons_self) x hx
    · exact forall_idsAll_of_closed ns (fun m hm => hclosed m (List.mem_append_right _ hm))
        (fun m hm => hids m (List.mem_cons_of_mem _ hm)) x hx

end

/-! ## The index of parents -/

mutual

theorem ids_perm : (n : Node) → n.ids.Perm (n.id :: n.edges.map Prod.fst)
  | ⟨id, fields, component, origin, children⟩ => by
    rw [ids, edges, List.map_append, List.map_map]
    exact (idsAll_perm children).cons id

theorem idsAll_perm : (ns : List Node) →
    (idsAll ns).Perm (ns.map (·.id) ++ (edgesAll ns).map Prod.fst)
  | [] => List.Perm.refl []
  | n :: ns => by
    rw [idsAll, edgesAll, List.map_append, List.map_cons, List.cons_append]
    refine ((ids_perm n).append (idsAll_perm ns)).trans ?_
    rw [List.cons_append]
    refine List.Perm.cons _ ?_
    rw [← List.append_assoc, ← List.append_assoc]
    exact List.perm_append_comm.append_right _

end

theorem mem_edges_iff {n : Node} {c p : String} :
    (c, p) ∈ n.edges ↔ ∃ m ∈ n.nodes, m.id = p ∧ ∃ k ∈ m.children, k.id = c := by
  rw [edges_eq_flatMap, List.mem_flatMap]
  constructor
  · rintro ⟨m, hm, hc⟩
    obtain ⟨k, hk, he⟩ := List.mem_map.1 hc
    cases he
    exact ⟨m, hm, rfl, k, hk, rfl⟩
  · rintro ⟨m, hm, rfl, k, hk, rfl⟩
    exact ⟨m, hm, List.mem_map.2 ⟨k, hk, rfl⟩⟩

/-! ## Changing one node -/

section Modify

variable (id : String) (f : Node → Node)

theorem modify_eq (n : Node) :
    n.modify id f =
      if n.id = id then f n
      else { n with children := (modifyIn? id f n.children).getD n.children } := by
  obtain ⟨own, fields, component, origin, children⟩ := n
  rw [modify, modify?]
  by_cases h : own = id
  · simp [h]
  · simp only [if_neg h]
    cases modifyIn? id f children <;> rfl

theorem modify_id (hf : ∀ m, (f m).id = m.id) (n : Node) : (n.modify id f).id = n.id := by
  rw [modify_eq]
  split
  · exact hf n
  · rfl

theorem modify_type (n : Node) (hf : n.id = id → (f n).type = n.type) :
    (n.modify id f).type = n.type := by
  rw [modify_eq]
  split
  · exact hf ‹_›
  · rfl

mutual

theorem modify?_eq_none_iff : (n : Node) → (n.modify? id f = none ↔ n.find? id = none)
  | ⟨own, fields, component, origin, children⟩ => by
    rw [modify?, find?]
    by_cases h : own = id
    · simp [h]
    · simp [h, modifyIn?_eq_none_iff children]

theorem modifyIn?_eq_none_iff : (ns : List Node) →
    (modifyIn? id f ns = none ↔ findIn? id ns = none)
  | [] => by simp [modifyIn?, findIn?]
  | n :: ns => by
    have hn := modify?_eq_none_iff n
    have hns := modifyIn?_eq_none_iff ns
    rw [modifyIn?, findIn?]
    cases hm : modify? id f n with
    | none => simp [hn.1 hm, hns]
    | some n' =>
      have hne : n.find? id ≠ none := fun h => by simp [hn.2 h] at hm
      simp [hne]

end

theorem modify_of_notMem {n : Node} (h : id ∉ n.ids) : n.modify id f = n := by
  have hnone : n.find? id = none := by
    rwa [← Option.not_isSome_iff_eq_none, find?_isSome_iff]
  rw [modify, (modify?_eq_none_iff id f n).2 hnone]
  rfl

theorem modifyIn?_getD (ns : List Node) (hnodup : (idsAll ns).Nodup) :
    (modifyIn? id f ns).getD ns = ns.map (·.modify id f) := by
  induction ns with
  | nil => rfl
  | cons n ns ih =>
    rw [idsAll, List.nodup_append] at hnodup
    obtain ⟨_, hns, hdisjoint⟩ := hnodup
    rw [modifyIn?, List.map_cons, modify]
    cases hn : modify? id f n with
    | none =>
      rw [← ih hns]
      cases modifyIn? id f ns <;> rfl
    | some n' =>
      have hid : id ∈ n.ids := by
        refine find?_isSome_iff.1 (Option.isSome_iff_ne_none.2 fun hnone => ?_)
        cases ((modify?_eq_none_iff id f n).2 hnone).symm.trans hn
      -- No other node has the id, so the others stay as they are.
      have hsame : ns.map (·.modify id f) = ns := by
        refine (List.map_congr_left fun m hm => ?_).trans (List.map_id ns)
        refine modify_of_notMem id f fun hmem => hdisjoint id hid id ?_ rfl
        rw [idsAll_eq_map]
        rw [ids_eq_map] at hmem
        obtain ⟨k, hk, hkid⟩ := List.mem_map.1 hmem
        exact List.mem_map.2 ⟨k, nodesAll_subset ns m (mem_nodesAll hm) k hk, hkid⟩
      rw [hsame]
      rfl

theorem modify_of_ne {n : Node} (h : n.id ≠ id) (hnodup : n.ids.Nodup) :
    n.modify id f = { n with children := n.children.map (·.modify id f) } := by
  rw [ids_eq, List.nodup_cons] at hnodup
  rw [modify_eq, if_neg h, modifyIn?_getD id f n.children hnodup.2]

mutual

/-- If a change takes the ids `gone` from the node that it finds and adds the ids `extra`, it does
so to the whole. -/
theorem modify?_ids_perm {gone extra : List String} : (n n' : Node) → n.modify? id f = some n' →
    (∀ m, n.find? id = some m → ((f m).ids ++ gone).Perm (m.ids ++ extra)) →
    (n'.ids ++ gone).Perm (n.ids ++ extra)
  | ⟨own, fields, component, origin, children⟩, n', h, hf => by
    rw [modify?] at h
    rw [find?] at hf
    by_cases hown : own = id
    · rw [if_pos hown] at h hf
      cases h
      exact hf _ rfl
    · rw [if_neg hown] at h hf
      obtain ⟨cs, hcs, rfl⟩ := Option.map_eq_some_iff.1 h
      rw [ids, ids]
      exact (modifyIn?_ids_perm children cs hcs hf).cons own

theorem modifyIn?_ids_perm {gone extra : List String} : (ns ns' : List Node) →
    modifyIn? id f ns = some ns' →
    (∀ m, findIn? id ns = some m → ((f m).ids ++ gone).Perm (m.ids ++ extra)) →
    (idsAll ns' ++ gone).Perm (idsAll ns ++ extra)
  | [], ns', h, _ => by cases h
  | n :: ns, ns', h, hf => by
    rw [modifyIn?] at h
    rw [findIn?] at hf
    cases hm : modify? id f n with
    | some n' =>
      rw [hm] at h
      cases h
      have hn := modify?_ids_perm n n' hm fun m hfind => hf m (by rw [hfind, Option.some_or])
      rw [idsAll, idsAll, List.append_assoc, List.append_assoc]
      calc (n'.ids ++ (idsAll ns ++ gone)).Perm ((n'.ids ++ gone) ++ idsAll ns) := by
            rw [List.append_assoc]
            exact List.perm_append_comm.append_left _
        _ |>.Perm ((n.ids ++ extra) ++ idsAll ns) := hn.append_right _
        _ |>.Perm (n.ids ++ (idsAll ns ++ extra)) := by
            rw [List.append_assoc]
            exact List.perm_append_comm.append_left _
    | none =>
      rw [hm] at h
      obtain ⟨ms, hms, rfl⟩ := Option.map_eq_some_iff.1 h
      rw [(modify?_eq_none_iff id f n).1 hm, Option.none_or] at hf
      rw [idsAll, idsAll, List.append_assoc, List.append_assoc]
      exact (modifyIn?_ids_perm ns ms hms hf).append_left _

end

theorem modify_ids_perm (gone extra : List String) {n m : Node} (h : n.find? id = some m)
    (hf : ((f m).ids ++ gone).Perm (m.ids ++ extra)) :
    ((n.modify id f).ids ++ gone).Perm (n.ids ++ extra) := by
  cases hn : n.modify? id f with
  | none =>
    rw [(modify?_eq_none_iff id f n).1 hn] at h
    cases h
  | some n' =>
    rw [modify, hn]
    refine modify?_ids_perm id f n n' hn ?_
    intro k hk
    cases h.symm.trans hk
    exact hf

end Modify

/-! ## Changing fields only -/

theorem isLeaf_congr {m n : Node} (h : m.type = n.type) : m.isLeaf = n.isLeaf := by
  rw [isLeaf, isLeaf, isText, isText, isExpression, isExpression, h]

/-- A change that leaves the id and the children alone. -/
def KeepsShape (f : Node → Node) : Prop := ∀ m, (f m).id = m.id ∧ (f m).children = m.children

theorem KeepsShape.ids {f : Node → Node} (h : KeepsShape f) (n : Node) : (f n).ids = n.ids := by
  rw [ids_eq, ids_eq, (h n).1, (h n).2]

theorem KeepsShape.edges {f : Node → Node} (h : KeepsShape f) (n : Node) :
    (f n).edges = n.edges := by
  rw [edges_eq, edges_eq, (h n).1, (h n).2]

mutual

theorem KeepsShape.modify? {id : String} {f : Node → Node} (h : KeepsShape f) :
    (n n' : Node) → n.modify? id f = some n' →
    n'.id = n.id ∧ n'.ids = n.ids ∧ n'.edges = n.edges
  | ⟨own, fields, component, origin, children⟩, n', hn => by
    rw [Node.modify?] at hn
    by_cases hown : own = id
    · rw [if_pos hown] at hn
      cases hn
      exact ⟨(h _).1, h.ids _, h.edges _⟩
    · rw [if_neg hown] at hn
      obtain ⟨cs, hcs, rfl⟩ := Option.map_eq_some_iff.1 hn
      obtain ⟨hmap, hids, hedges⟩ := KeepsShape.modifyIn? h children cs hcs
      refine ⟨rfl, ?_, ?_⟩
      · rw [Node.ids, Node.ids, hids]
      · have hown : ∀ ns : List Node, ns.map (fun c => (c.id, own)) =
            (ns.map (·.id)).map fun c => (c, own) := fun ns => by simp
        rw [Node.edges, Node.edges, hedges, hown, hown, hmap]

theorem KeepsShape.modifyIn? {id : String} {f : Node → Node} (h : KeepsShape f) :
    (ns ns' : List Node) → Node.modifyIn? id f ns = some ns' →
    ns'.map (·.id) = ns.map (·.id) ∧ idsAll ns' = idsAll ns ∧ edgesAll ns' = edgesAll ns
  | [], ns', hns => by cases hns
  | n :: ns, ns', hns => by
    rw [Node.modifyIn?] at hns
    cases hn : Node.modify? id f n with
    | some n' =>
      rw [hn] at hns
      cases hns
      obtain ⟨hid, hids, hedges⟩ := KeepsShape.modify? h n n' hn
      simp [idsAll, edgesAll, hid, hids, hedges]
    | none =>
      rw [hn] at hns
      obtain ⟨ms, hms, rfl⟩ := Option.map_eq_some_iff.1 hns
      obtain ⟨hmap, hids, hedges⟩ := KeepsShape.modifyIn? h ns ms hms
      simp [idsAll, edgesAll, hmap, hids, hedges]

end

theorem KeepsShape.modify {id : String} {f : Node → Node} (h : KeepsShape f) (n : Node) :
    (n.modify id f).id = n.id ∧ (n.modify id f).ids = n.ids ∧ (n.modify id f).edges = n.edges := by
  rw [Node.modify]
  cases hn : n.modify? id f with
  | none => exact ⟨rfl, rfl, rfl⟩
  | some n' => exact h.modify? n n' hn

/-! ## What nodes are changed to -/

section Changed

variable {id : String} {f : Node → Node} {α : Type} {g : Node → α}

/-- What is kept of the changed node is kept of every node around it. -/
theorem eq_of_modify? (hg : ∀ m cs, g { m with children := cs } = g m) {n n' : Node}
    (hf : n.id = id → g (f n) = g n) (h : n.modify? id f = some n') : g n' = g n := by
  obtain ⟨own, fields, component, origin, children⟩ := n
  rw [modify?] at h
  split at h
  · cases h
    exact hf ‹_›
  · obtain ⟨cs, _, rfl⟩ := Option.map_eq_some_iff.1 h
    exact hg ⟨own, fields, component, origin, children⟩ cs

theorem map_eq_of_modifyIn? (hg : ∀ m cs, g { m with children := cs } = g m) :
    ∀ {ns ns' : List Node}, (∀ m ∈ ns, m.id = id → g (f m) = g m) →
    modifyIn? id f ns = some ns' → ns'.map g = ns.map g := by
  intro ns
  induction ns with
  | nil => rintro ns' _ ⟨⟩
  | cons n ns ih =>
    intro ns' hf h
    obtain ⟨hn, hns⟩ := List.forall_mem_cons.1 hf
    rw [modifyIn?] at h
    cases hm : modify? id f n with
    | some n' =>
      rw [hm] at h
      cases h
      rw [List.map_cons, List.map_cons, eq_of_modify? hg hn hm]
    | none =>
      rw [hm] at h
      obtain ⟨ms, hms, rfl⟩ := Option.map_eq_some_iff.1 h
      rw [List.map_cons, List.map_cons, ih hns hms]

theorem map_of_notMem {ns : List Node} (h : id ∉ ns.map (·.id)) :
    ns.map (fun m => if m.id = id then g (f m) else g m) = ns.map g := by
  refine List.map_congr_left fun m hm => if_neg ?_
  rintro rfl
  exact h (List.mem_map_of_mem hm)

mutual

theorem map_nodes_modify? (hg : ∀ m cs, g { m with children := cs } = g m)
    (hf : ∀ m, (f m).children = m.children) : (n : Node) → {n' : Node} → n.ids.Nodup →
    n.modify? id f = some n' →
    n'.nodes.map g = n.nodes.map fun m => if m.id = id then g (f m) else g m
  | ⟨own, fields, component, origin, children⟩, n', hnodup, h => by
    rw [ids, List.nodup_cons] at hnodup
    rw [modify?] at h
    by_cases hown : own = id
    · rw [if_pos hown] at h
      cases h
      subst hown
      rw [idsAll_eq_map] at hnodup
      rw [nodes_eq, hf, nodes, List.map_cons, List.map_cons, map_of_notMem hnodup.1, if_pos rfl]
    · rw [if_neg hown] at h
      obtain ⟨cs, hcs, rfl⟩ := Option.map_eq_some_iff.1 h
      rw [nodes, nodes, List.map_cons, List.map_cons, map_nodes_modifyIn? hg hf children hnodup.2 hcs,
        if_neg hown]
      exact congrArg (· :: _) (hg ⟨own, fields, component, origin, children⟩ cs)

theorem map_nodes_modifyIn? (hg : ∀ m cs, g { m with children := cs } = g m)
    (hf : ∀ m, (f m).children = m.children) : (ns : List Node) → {ns' : List Node} →
    (idsAll ns).Nodup → modifyIn? id f ns = some ns' →
    (nodesAll ns').map g = (nodesAll ns).map fun m => if m.id = id then g (f m) else g m
  | [], ns', _, h => by cases h
  | n :: ns, ns', hnodup, h => by
    rw [idsAll, List.nodup_append] at hnodup
    obtain ⟨hn, hns, hdisjoint⟩ := hnodup
    rw [modifyIn?] at h
    cases hm : modify? id f n with
    | some n' =>
      rw [hm] at h
      cases h
      have hid : id ∈ n.ids := by
        refine find?_isSome_iff.1 (Option.isSome_iff_ne_none.2 fun hnone => ?_)
        rw [(modify?_eq_none_iff id _ n).2 hnone] at hm
        cases hm
      have hno : id ∉ (nodesAll ns).map (·.id) := by
        rw [← idsAll_eq_map]
        exact fun hmem => hdisjoint id hid id hmem rfl
      rw [nodesAll, nodesAll, List.map_append, List.map_append, map_nodes_modify? hg hf n hn hm,
        map_of_notMem hno]
    | none =>
      rw [hm] at h
      obtain ⟨ms, hms, rfl⟩ := Option.map_eq_some_iff.1 h
      have hno : id ∉ n.nodes.map (·.id) := by
        rw [← ids_eq_map, ← find?_isSome_iff, (modify?_eq_none_iff id _ n).1 hm]
        simp
      rw [nodesAll, nodesAll, List.map_append, List.map_append,
        map_nodes_modifyIn? hg hf ns hns hms, map_of_notMem hno]

end

theorem map_nodes_modify (hg : ∀ m cs, g { m with children := cs } = g m)
    (hf : ∀ m, (f m).children = m.children) {n : Node} (hnodup : n.ids.Nodup) :
    (n.modify id f).nodes.map g = n.nodes.map fun m => if m.id = id then g (f m) else g m := by
  rw [modify]
  cases hm : n.modify? id f with
  | some n' => exact map_nodes_modify? hg hf n hnodup hm
  | none =>
    have hno : id ∉ n.nodes.map (·.id) := by
      rw [← ids_eq_map, ← find?_isSome_iff, (modify?_eq_none_iff id _ n).1 hm]
      simp
    exact (map_of_notMem hno).symm

end Changed

end PageEditor.Node
