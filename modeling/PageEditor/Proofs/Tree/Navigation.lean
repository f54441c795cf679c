import Mathlib.Data.List.Chain
import PageEditor.Proofs.Tree.Moves
import PageEditor.Proofs.Tree.Parents

/-!
# Finding one's way in a tree

Downwards a tree is walked by the children that its nodes hold, upwards by the index of parents, and a
list of parents may tell of the same nodes without holding any. All three lead to the same nodes. A way
up is never longer than the tree has nodes, since the nodes on it hold more and more of them.
-/
set_option autoImplicit false

namespace PageEditor

namespace Tree

variable {t : Tree} {l : ParentList String} {a b x parent child : String} {way : List String}

/-- A node with the id `parent` has a child with the id `child`. -/
def Holds (t : Tree) (parent child : String) : Prop :=
  ∃ n ∈ t.root.nodes, n.id = parent ∧ child ∈ n.childIds

/-! ## Upwards -/

/-- Who climbs from a node to its parent, and so on, comes to an end after these ids. -/
inductive Climbs (t : Tree) : String → List String → Prop
  | top {a : String} (h : t.parentId? a = none) : Climbs t a [a]
  | step {a parent : String} {way : List String} (h : t.parentId? a = some parent)
      (hway : Climbs t parent way) : Climbs t a (a :: way)

/-- The nodes of a path lead from the root down to `a`, each one holding the next. -/
structure LeadsTo (t : Tree) (a : String) (path : List Node) : Prop where
  first : path.head? = some t.root
  last : ∃ n, path.getLast? = some n ∧ n.id = a
  holds : path.IsChain fun n c => c ∈ n.children

theorem Indexed.parentId?_iff_holds (h : t.Indexed) :
    t.parentId? child = some parent ↔ t.Holds parent child := by
  simp only [h.parentId?_eq_some_iff, Node.mem_edges_iff, Holds, Node.childIds, List.mem_map]

theorem Indexed.length_ids (h : t.Indexed) : t.root.ids.length = t.parents.length + 1 := by
  rw [t.root.ids_perm.length_eq, h.parents_eq, List.length_cons, List.length_map]

theorem length_ids_of_child {n c : Node} (hc : c ∈ n.children) : c.ids.length < n.ids.length := by
  have hle := (Node.ids_sublist_idsAll hc).length_le
  rw [n.ids_eq, List.length_cons]
  omega

/-- There are only so many steps from a node up to the root as there are nodes that it does not hold. -/
theorem Indexed.exists_climbs (h : t.Indexed) {k : Nat} : ∀ {a : String} {n : Node},
    t.find? a = some n → t.root.ids.length ≤ n.ids.length + k →
    ∃ way, t.Climbs a way ∧ way.length ≤ k + 1 := by
  induction k with
  | zero =>
    intro a n hn hk
    refine ⟨[a], .top (Option.eq_none_iff_forall_ne_some.2 fun parent hp => ?_), Nat.le_refl _⟩
    obtain ⟨p, c, hpfind, hc, hmem, _⟩ := h.parent_holds hp
    cases hn.symm.trans hc
    have hless := length_ids_of_child hmem
    have hle := (Node.ids_sublist_ids t.root (Node.mem_nodes_of_find? hpfind)).length_le
    omega
  | succ k ih =>
    intro a n hn hk
    cases hp : t.parentId? a with
    | none => exact ⟨[a], .top hp, by simp⟩
    | some parent =>
      obtain ⟨p, c, hpfind, hc, hmem, _⟩ := h.parent_holds hp
      cases hn.symm.trans hc
      have hless := length_ids_of_child hmem
      obtain ⟨way, hway, hlength⟩ := ih hpfind (by omega)
      exact ⟨a :: way, .step hp hway, by simpa using hlength⟩

theorem upwards_of_climbs (hway : t.Climbs a way) :
    ∀ {fuel : Nat}, way.length ≤ fuel → t.upwards a fuel = way := by
  induction hway with
  | top hp =>
    intro fuel hfuel
    cases fuel with
    | zero => simp at hfuel
    | succ fuel => rw [upwards, hp]
  | step hp _ ih =>
    intro fuel hfuel
    cases fuel with
    | zero => simp at hfuel
    | succ fuel => simp only [upwards, hp, ih (Nat.le_of_succ_le_succ hfuel)]

/-- The index of a tree with `n` nodes has an entry less, so the climb is never cut short. -/
theorem Indexed.path_of_climbs (h : t.Indexed) (ha : a ∈ t.allIds) :
    ∃ way, t.Climbs a way ∧ t.path a = way.reverse.filterMap t.find? := by
  obtain ⟨n, hn⟩ := Node.exists_find? ha
  have hpos : 0 < n.ids.length := by
    rw [n.ids_eq]
    exact Nat.succ_pos _
  have hlength := h.length_ids
  obtain ⟨way, hway, hle⟩ := h.exists_climbs (k := t.parents.length) hn (by omega)
  refine ⟨way, hway, ?_⟩
  rw [path, if_pos (h.contains_iff.2 ha), upwards_of_climbs hway hle]

/-! ## The path to a node -/

theorem LeadsTo.concat {path : List Node} {p c : Node} (hpath : t.LeadsTo parent path)
    (hp : path.getLast? = some p) (hc : c ∈ p.children) : t.LeadsTo c.id (path ++ [c]) := by
  refine ⟨?_, ⟨c, by simp, rfl⟩, ?_⟩
  · rw [List.head?_append, hpath.first, Option.some_or]
  · refine hpath.holds.append (List.isChain_singleton c) ?_
    intro m hm k hk
    cases hp.symm.trans hm
    cases hk
    exact hc

theorem Indexed.leadsTo_of_climbs (h : t.Indexed) (hway : t.Climbs a way) : a ∈ t.allIds →
    t.LeadsTo a (way.reverse.filterMap t.find?) ∧
      (way.reverse.filterMap t.find?).map (·.id) = way.reverse := by
  induction hway with
  | top hp =>
    intro ha
    obtain rfl := (h.parentId?_eq_none_iff ha).1 hp
    have hroot : t.find? rootId = some t.root := by
      rw [← h.root_id]
      exact Node.find?_of_mem h.nodup t.root.mem_nodes_self
    simp only [List.reverse_singleton, List.filterMap_cons, hroot, List.filterMap_nil,
      List.map_cons, List.map_nil, h.root_id, and_true]
    exact ⟨rfl, ⟨t.root, rfl, h.root_id⟩, List.isChain_singleton _⟩
  | step hp _ ih =>
    intro ha
    obtain ⟨p, c, hpfind, hc, hmem, rfl, rfl⟩ := h.parent_holds hp
    obtain ⟨hpath, hids⟩ := ih (Node.id_mem_of_find? hpfind)
    obtain ⟨q, hq, hqid⟩ := hpath.last
    have hqnodes : q ∈ t.root.nodes := by
      obtain ⟨y, _, hy⟩ := List.mem_filterMap.1 (List.mem_of_getLast? hq)
      exact Node.mem_nodes_of_find? hy
    obtain rfl := h.eq_of_id hqnodes (Node.mem_nodes_of_find? hpfind) hqid
    have hself : [c.id].filterMap t.find? = [c] := by
      rw [List.filterMap_cons, hc, List.filterMap_nil]
    rw [List.reverse_cons, List.filterMap_append, hself, List.map_append, hids]
    exact ⟨hpath.concat hq hmem, rfl⟩

theorem Indexed.mem_way_iff (h : t.Indexed) (ha : a ∈ t.allIds) (hway : t.Climbs b way) :
    b ∈ t.allIds → (a ∈ way ↔ t.InSubtree a b) := by
  have hself : t.InSubtree a a := by
    obtain ⟨n, hn⟩ := Node.exists_find? ha
    exact ⟨n, hn, Node.id_of_find? hn ▸ n.id_mem_ids⟩
  induction hway with
  | top hp =>
    intro hb
    obtain rfl := (h.parentId?_eq_none_iff hb).1 hp
    rw [List.mem_singleton]
    refine ⟨fun heq => heq ▸ hself, fun hsub => ?_⟩
    exact Classical.byContradiction fun hne => h.not_inSubtree_root hne hsub
  | step hp _ ih =>
    intro _
    rw [List.mem_cons, ih (h.parent_mem hp)]
    refine ⟨?_, fun hsub => ?_⟩
    · rintro (rfl | hsub)
      · exact hself
      · exact h.inSubtree_of_parent hp hsub
    · refine or_iff_not_imp_left.2 fun hne => ?_
      obtain ⟨q, hq, hsubq⟩ := h.parentId?_of_inSubtree hsub (Ne.symm hne)
      cases hp.symm.trans hq
      exact hsubq

theorem Indexed.path_spec (h : t.Indexed) (ha : a ∈ t.allIds) :
    (∃ way, t.Climbs a way ∧ (t.path a).map (·.id) = way.reverse) ∧ t.LeadsTo a (t.path a) := by
  obtain ⟨way, hway, hpath⟩ := h.path_of_climbs ha
  obtain ⟨hleads, hids⟩ := h.leadsTo_of_climbs hway ha
  rw [hpath]
  exact ⟨⟨way, hway, hids⟩, hleads⟩

theorem Indexed.mem_path_iff (h : t.Indexed) (ha : a ∈ t.allIds) (hb : b ∈ t.allIds) :
    (∃ n ∈ t.path b, n.id = a) ↔ t.InSubtree a b := by
  obtain ⟨way, hway, hpath⟩ := h.path_of_climbs hb
  have hids := (h.leadsTo_of_climbs hway hb).2
  rw [← h.mem_way_iff ha hway hb, ← List.mem_reverse, ← hids, ← hpath, List.mem_map]

/-! ## Downwards -/

theorem Indexed.mem_descendants_iff (h : t.Indexed) (ha : a ∈ t.allIds) :
    x ∈ t.hierarchy.descendants a ↔ x ≠ a ∧ t.InSubtree a x := by
  by_cases hne : x = a
  · simp [Hierarchy.mem_descendants_iff, hne]
  · have hsearch := h.isDescendant_iff ha hne
    rw [isDescendant, Hierarchy.isDescendant, List.contains_iff_mem] at hsearch
    simp [hsearch, hne]

theorem Indexed.wouldCycle_iff_inSubtree (h : t.Indexed) (ha : a ∈ t.allIds) :
    t.hierarchy.wouldCycle a b = true ↔ t.InSubtree a b := by
  rw [Hierarchy.wouldCycle_iff, h.mem_descendants_iff ha]
  by_cases hba : b = a
  · obtain ⟨n, hn⟩ := Node.exists_find? ha
    simp only [hba, true_or, true_iff]
    exact ⟨n, hn, Node.id_of_find? hn ▸ n.id_mem_ids⟩
  · simp [hba]

theorem Indexed.exists_unique_node (h : t.Indexed) (ha : a ∈ t.allIds) :
    ∃ n ∈ t.root.nodes, t.find? a = some n ∧ ∀ m ∈ t.root.nodes, m.id = a ↔ m = n := by
  obtain ⟨n, hn⟩ := Node.exists_find? ha
  have hmem := Node.mem_nodes_of_find? hn
  have hid := Node.id_of_find? hn
  exact ⟨n, hmem, hn, fun m hm => ⟨fun hma => h.eq_of_id hm hmem (hma.trans hid.symm), (· ▸ hid)⟩⟩

/-! ## Children -/

theorem Indexed.nodup_childIds (h : t.Indexed) {n : Node} (hn : n ∈ t.root.nodes) :
    n.childIds.Nodup := by
  have hids := (Node.ids_sublist_ids t.root hn).nodup h.nodup
  rw [n.ids_eq, List.nodup_cons, (Node.idsAll_perm n.children).nodup_iff] at hids
  exact (List.nodup_append.1 hids.2).1

theorem Indexed.parent?_of_parentId? (h : t.Indexed) (hp : t.parentId? a = some parent) :
    ∃ p, t.parent? a = some p ∧ p.id = parent ∧ p ∈ t.root.nodes ∧ a ∈ p.childIds := by
  obtain ⟨p, c, hpfind, _, hc, rfl, hid⟩ := h.parent_holds hp
  refine ⟨p, ?_, hid, Node.mem_nodes_of_find? hpfind, List.mem_map_of_mem hc⟩
  rw [parent?, hp, Option.bind_some, hpfind]

theorem Indexed.parent?_id (h : t.Indexed) (a : String) :
    (t.parent? a).map (·.id) = t.parentId? a := by
  cases hp : t.parentId? a with
  | none => rw [parent?, hp, Option.bind_none, Option.map_none]
  | some parent =>
    obtain ⟨p, hparent, rfl, _⟩ := h.parent?_of_parentId? hp
    rw [hparent, Option.map_some]

theorem Indexed.indexInParent?_spec (h : t.Indexed) (ha : a ∈ t.allIds) :
    (t.indexInParent? a = none ↔ a = rootId) ∧
      ∀ p, t.parent? a = some p →
        ∃ i, t.indexInParent? a = some i ∧ ∀ j, p.childIds[j]? = some a ↔ j = i := by
  have hroot := h.parentId?_eq_none_iff ha
  cases hp : t.parentId? a with
  | none =>
    have hparent : t.parent? a = none := by rw [parent?, hp, Option.bind_none]
    rw [indexInParent?, hparent, Option.bind_none, ← hroot, hp]
    exact ⟨by simp, fun p hp' => by cases hp'⟩
  | some parent =>
    obtain ⟨p, hparent, -, hnodes, hmem⟩ := h.parent?_of_parentId? hp
    obtain ⟨i, hi⟩ : ∃ i, p.childIds.findIdx? (· == a) = some i := by
      rw [← Option.isSome_iff_exists, List.findIdx?_isSome, List.any_eq_true]
      exact ⟨a, hmem, beq_self_eq_true a⟩
    have hindex : t.indexInParent? a = some i := by
      rw [indexInParent?, hparent, Option.bind_some, hi]
    obtain ⟨hlt, hat, _⟩ := List.findIdx?_eq_some_iff_getElem.1 hi
    have hiat : p.childIds[i]? = some a := by
      rw [List.getElem?_eq_getElem hlt, beq_iff_eq.1 hat]
    rw [hindex, ← hroot, hp]
    refine ⟨by simp, fun q hq => ?_⟩
    cases hparent.symm.trans hq
    refine ⟨i, rfl, fun j => ?_⟩
    rw [← hiat, eq_comm, List.getElem?_inj hlt (h.nodup_childIds hnodes), eq_comm]

end Tree

/-! ## Lists of parents -/

/-- A list of parents that has the links of a tree. The root has no parent, whether it is listed or
not. -/
structure ParentList.Lists (l : ParentList String) (t : Tree) : Prop where
  names_iff : ∀ {parent child : String}, l.Names parent child ↔ t.Holds parent child
  parentless : ∀ {id : String}, (id, none) ∈ l.links → id = rootId

namespace ParentList.Lists

variable {t : Tree} {l : ParentList String} {a b x : String}

theorem parent?_eq (hl : l.Lists t) (h : t.Indexed) (a : String) : l.parent? a = t.parentId? a := by
  have hentry : ∀ p, (a, some p) ∈ l.links ↔ t.parentId? a = some p := fun p => by
    rw [h.parentId?_iff_holds, ← hl.names_iff, Names]
  cases hfind : l.links.find? (·.1 == a) with
  | none =>
    rw [parent?, hfind, Option.bind_none, eq_comm, Option.eq_none_iff_forall_ne_some]
    intro p hp
    simpa using List.find?_eq_none.1 hfind _ ((hentry p).2 hp)
  | some link =>
    obtain ⟨id, known⟩ := link
    obtain rfl : id = a := by simpa using List.find?_some hfind
    have hmem := List.mem_of_find?_eq_some hfind
    rw [parent?, hfind, Option.bind_some]
    cases known with
    | some p => exact ((hentry p).1 hmem).symm
    | none =>
      rw [eq_comm, Option.eq_none_iff_forall_ne_some]
      exact fun p hp => h.ne_root hp (hl.parentless hmem)

theorem link_eq (hl : l.Lists t) (h : t.Indexed) : l.hierarchy.Link = t.hierarchy.Link := by
  funext a b
  refine propext (link_iff.trans (hl.names_iff.trans ?_))
  show t.Holds a b ↔ b ∈ t.children a
  rw [Tree.children]
  constructor
  · rintro ⟨n, hn, rfl, hb⟩
    rw [show t.find? n.id = some n from Node.find?_of_mem h.nodup hn]
    exact hb
  · intro hb
    cases hfind : t.find? a with
    | none => simp [hfind] at hb
    | some n =>
      rw [hfind] at hb
      exact ⟨n, Node.mem_nodes_of_find? hfind, Node.id_of_find? hfind, hb⟩

theorem mem_descendants_iff (hl : l.Lists t) (h : t.Indexed) :
    x ∈ l.hierarchy.descendants a ↔ x ∈ t.hierarchy.descendants a := by
  simp only [Hierarchy.mem_descendants_iff, Hierarchy.below_iff, hl.link_eq h]

theorem wouldCycle_eq (hl : l.Lists t) (h : t.Indexed) :
    l.hierarchy.wouldCycle a b = t.hierarchy.wouldCycle a b := by
  rw [Bool.eq_iff_iff, Hierarchy.wouldCycle_iff, Hierarchy.wouldCycle_iff, hl.mem_descendants_iff h]

end ParentList.Lists

namespace Tree

variable {t : Tree} {l : ParentList String} {a b : String}

/-- Walking down, climbing up and a list of the tree's links tell the same. The list has the same
descendants and the same parents as the tree: a node's descendants are its subtree but for itself, and
its parent is the node that holds it. Climbing ends, and the path back leads from the root to the node
that was asked for. What is put below `b` makes a cycle just if it is on the path to `b`. An id finds
the only node that has it, and its index is the only place among the children of its parent where it
stands; the root alone has none. -/
theorem Indexed.views_agree (h : t.Indexed) (hl : l.Lists t) (ha : a ∈ t.allIds)
    (hb : b ∈ t.allIds) :
    ((l.hierarchy.descendants a).Perm (t.hierarchy.descendants a) ∧
      ∀ x, x ∈ t.hierarchy.descendants a ↔ x ≠ a ∧ t.InSubtree a x) ∧
    (l.parent? a = t.parentId? a ∧ (t.parent? a).map (·.id) = t.parentId? a ∧
      ∀ p, t.parentId? a = some p ↔ t.Holds p a) ∧
    ((∃ way, t.Climbs a way ∧ (t.path a).map (·.id) = way.reverse) ∧ t.LeadsTo a (t.path a)) ∧
    ((t.hierarchy.wouldCycle a b = true ↔ ∃ n ∈ t.path b, n.id = a) ∧
      l.hierarchy.wouldCycle a b = t.hierarchy.wouldCycle a b) ∧
    (∃ n ∈ t.root.nodes, t.find? a = some n ∧ ∀ m ∈ t.root.nodes, m.id = a ↔ m = n) ∧
    (t.indexInParent? a = none ↔ a = rootId) ∧
      ∀ p, t.parent? a = some p →
        ∃ i, t.indexInParent? a = some i ∧ ∀ j, p.childIds[j]? = some a ↔ j = i := by
  refine ⟨⟨?_, fun x => h.mem_descendants_iff ha⟩,
    ⟨hl.parent?_eq h a, h.parent?_id a, fun p => h.parentId?_iff_holds⟩, h.path_spec ha,
    ⟨(h.wouldCycle_iff_inSubtree ha).trans (h.mem_path_iff ha hb).symm, hl.wouldCycle_eq h⟩,
    h.exists_unique_node ha, h.indexInParent?_spec ha⟩
  have honce : ∀ h' : Hierarchy String, (h'.descendants a).Nodup := fun h' =>
    Hierarchy.nodup_collect _ List.nodup_nil
  exact (List.perm_ext_iff_of_nodup (honce _) (honce _)).2 fun x => hl.mem_descendants_iff h

/-- The links of the two items and their list, in another order than that of the text. -/
def twoItemLinks : ParentList String :=
  ⟨[("two", some "list"), ("root", none), ("one", some "list"), ("list", some "root")]⟩

theorem lists_twoItems : twoItemLinks.Lists twoItems := by
  constructor
  · intro parent child
    simp [ParentList.Names, twoItemLinks, Holds, twoItems, around, Node.root, Node.ofType, Node.nodes,
      Node.nodesAll, Node.childIds, rootId]
    grind
  · intro id hid
    simpa [twoItemLinks, rootId] using hid

theorem views_agree_twoItems :
    (twoItemLinks.hierarchy.descendants "list").Perm (twoItems.hierarchy.descendants "list") ∧
      twoItems.hierarchy.wouldCycle "list" "two" = true ∧
      twoItems.indexInParent? "two" = some 1 := by
  have h : twoItems.Indexed := ⟨rfl, by decide, rfl⟩
  have hlist := h.views_agree lists_twoItems (a := "list") (b := "two") (by decide) (by decide)
  have htwo := h.views_agree lists_twoItems (a := "two") (b := "two") (by decide) (by decide)
  refine ⟨hlist.1.1, hlist.2.2.2.1.1.2 ?_, ?_⟩
  · have hpath : (twoItems.path "two").map (·.id) = ["root", "list", "two"] := by decide
    exact List.mem_map.1 (hpath ▸ by simp)
  · obtain ⟨i, hi, hat⟩ := htwo.2.2.2.2.2.2 _ rfl
    rw [hi, ← (hat 1).1 rfl]

end Tree

end PageEditor
