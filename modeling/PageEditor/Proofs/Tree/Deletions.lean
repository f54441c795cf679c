import Mathlib.Data.List.Forall2
import PageEditor.Proofs.Tree.Stems

/-!
# What deletions leave

A node that is deleted takes along what is below it, and nothing else changes. So every node that is
left is one that was there, with the same id, fields, component and origin, and its children are those
of the old ones that are left, in their order.
-/
set_option autoImplicit false

namespace PageEditor

namespace Node

/-! ## Nodes with fewer children -/

/-- The node is `k` but for children that are gone. -/
structure IsRestOf (n k : Node) : Prop where
  id : n.id = k.id
  fields : n.fields = k.fields
  component : n.component = k.component
  origin : n.origin = k.origin
  childIds : n.childIds.Sublist k.childIds

variable {n k l : Node}

theorem isRestOf_refl (n : Node) : n.IsRestOf n := ⟨rfl, rfl, rfl, rfl, List.Sublist.refl _⟩

theorem IsRestOf.trans (h : n.IsRestOf k) (hk : k.IsRestOf l) : n.IsRestOf l :=
  ⟨h.id.trans hk.id, h.fields.trans hk.fields, h.component.trans hk.component,
    h.origin.trans hk.origin, h.childIds.trans hk.childIds⟩

theorem IsRestOf.eq_withChildren (h : n.IsRestOf k) : n = { k with children := n.children } := by
  obtain ⟨id, fields, component, origin, children⟩ := n
  obtain ⟨rfl, rfl, rfl, rfl, _⟩ := h
  rfl

theorem IsRestOf.isLeaf (h : n.IsRestOf k) : n.isLeaf = k.isLeaf := by
  rw [Node.isLeaf, Node.isLeaf, isText, isText, isExpression, isExpression, type, type, h.fields]

theorem IsRestOf.children_nil (h : n.IsRestOf k) (hk : k.children = []) : n.children = [] := by
  have hsublist := h.childIds
  rw [Node.childIds, Node.childIds, hk, List.map_nil, List.sublist_nil, List.map_eq_nil_iff] at hsublist
  exact hsublist

theorem isRestOf_dropChildren (id : String) (n : Node) : (n.dropChildren id).IsRestOf n :=
  ⟨rfl, rfl, rfl, rfl, List.filter_sublist.map _⟩

theorem isRestOf_children {known : List Node}
    (hunique : ∀ k ∈ known, ∀ k' ∈ known, k.id = k'.id → k = k') {ns ks : List Node}
    (hns : ∀ n ∈ ns, ∃ k ∈ known, n.IsRestOf k) (hks : ∀ k ∈ ks, k ∈ known)
    (hids : ns.map (·.id) = ks.map (·.id)) : List.Forall₂ IsRestOf ns ks := by
  induction ns generalizing ks with
  | nil =>
    rw [List.map_nil] at hids
    rw [List.map_eq_nil_iff.1 hids.symm]
    exact .nil
  | cons n ns ih =>
    cases ks with
    | nil => cases hids
    | cons k ks =>
      obtain ⟨hid, hmore⟩ := List.cons.inj hids
      obtain ⟨hn, hns⟩ := List.forall_mem_cons.1 hns
      obtain ⟨hk, hks'⟩ := List.forall_mem_cons.1 hks
      obtain ⟨k', hk', hrest⟩ := hn
      obtain rfl := hunique k' hk' k hk (hrest.id.symm.trans hid)
      exact .cons hrest (ih hns hks' hmore)

/-! ## One deletion -/

mutual

theorem isRestOf_modify? {id x : String} : (n n' : Node) →
    n.modify? id (·.dropChildren x) = some n' →
    n'.IsRestOf n ∧ ∀ m ∈ nodesAll n'.children, ∃ k ∈ nodesAll n.children, m.IsRestOf k
  | ⟨own, fields, component, origin, children⟩, n', hn => by
    rw [Node.modify?] at hn
    by_cases hown : own = id
    · rw [if_pos hown] at hn
      cases hn
      refine ⟨isRestOf_dropChildren x _, fun m hm => ⟨m, ?_, isRestOf_refl m⟩⟩
      obtain ⟨c, hc, hmc⟩ := mem_nodesAll_iff.1 hm
      exact mem_nodesAll_iff.2 ⟨c, (List.mem_filter.1 hc).1, hmc⟩
    · rw [if_neg hown] at hn
      obtain ⟨cs, hcs, rfl⟩ := Option.map_eq_some_iff.1 hn
      obtain ⟨hids, hbelow⟩ := isRestOf_modifyIn? children cs hcs
      refine ⟨⟨rfl, rfl, rfl, rfl, ?_⟩, hbelow⟩
      rw [childIds, childIds, hids]

theorem isRestOf_modifyIn? {id x : String} : (ns ns' : List Node) →
    Node.modifyIn? id (·.dropChildren x) ns = some ns' →
    ns'.map (·.id) = ns.map (·.id) ∧
      ∀ m ∈ nodesAll ns', ∃ k ∈ nodesAll ns, m.IsRestOf k
  | [], ns', hns => by cases hns
  | n :: ns, ns', hns => by
    rw [Node.modifyIn?] at hns
    cases hm : Node.modify? id (·.dropChildren x) n with
    | some n' =>
      rw [hm] at hns
      cases hns
      obtain ⟨hself, hbelow⟩ := isRestOf_modify? n n' hm
      refine ⟨by rw [List.map_cons, List.map_cons, hself.id], fun m hm => ?_⟩
      rw [nodesAll, nodes_eq] at hm
      rw [nodesAll, nodes_eq]
      rcases List.mem_append.1 hm with hm | hm
      · rcases List.mem_cons.1 hm with rfl | hm
        · exact ⟨n, List.mem_append_left _ List.mem_cons_self, hself⟩
        · obtain ⟨k, hk, hrest⟩ := hbelow m hm
          exact ⟨k, List.mem_append_left _ (List.mem_cons_of_mem _ hk), hrest⟩
      · exact ⟨m, List.mem_append_right _ hm, isRestOf_refl m⟩
    | none =>
      rw [hm] at hns
      obtain ⟨ms, hms, rfl⟩ := Option.map_eq_some_iff.1 hns
      obtain ⟨hids, hbelow⟩ := isRestOf_modifyIn? ns ms hms
      refine ⟨by rw [List.map_cons, List.map_cons, hids], fun m hm => ?_⟩
      rw [nodesAll] at hm ⊢
      rcases List.mem_append.1 hm with hm | hm
      · exact ⟨m, List.mem_append_left _ hm, isRestOf_refl m⟩
      · obtain ⟨k, hk, hrest⟩ := hbelow m hm
        exact ⟨k, List.mem_append_right _ hk, hrest⟩

end

theorem isRestOf_modify (id x : String) (n : Node) :
    (n.modify id (·.dropChildren x)).IsRestOf n ∧
      ∀ m ∈ nodesAll (n.modify id (·.dropChildren x)).children,
        ∃ k ∈ nodesAll n.children, m.IsRestOf k := by
  rw [Node.modify]
  cases hn : n.modify? id (·.dropChildren x) with
  | none => exact ⟨isRestOf_refl n, fun m hm => ⟨m, hm, isRestOf_refl m⟩⟩
  | some n' => exact isRestOf_modify? n n' hn

end Node

/-! ## Trees -/

namespace Tree

open Node (nodesAll)

/-- The root and all nodes below it are what is left of nodes of `t₀`. -/
structure IsRestOf (t t₀ : Tree) : Prop where
  root : t.root.IsRestOf t₀.root
  below : ∀ n ∈ nodesAll t.root.children, ∃ k ∈ nodesAll t₀.root.children, n.IsRestOf k

variable {t t₀ : Tree}

theorem isRestOf_refl (t : Tree) : t.IsRestOf t :=
  ⟨t.root.isRestOf_refl, fun n hn => ⟨n, hn, n.isRestOf_refl⟩⟩

theorem IsRestOf.delete (h : t.IsRestOf t₀) (id : String) : (t.delete id).2.IsRestOf t₀ := by
  unfold Tree.delete
  split
  · exact h
  · cases t.parentId? id with
    | none => exact h
    | some parentId =>
      obtain ⟨hroot, hbelow⟩ := t.root.isRestOf_modify parentId id
      refine ⟨hroot.trans h.root, fun n hn => ?_⟩
      obtain ⟨m, hm, hrest⟩ := hbelow n hn
      obtain ⟨k, hk, hrest'⟩ := h.below m hm
      exact ⟨k, hk, hrest.trans hrest'⟩

theorem IsRestOf.stemsFrom (h : t.IsRestOf t₀) : t₀.StemsFrom t := by
  refine ⟨⟨t.root.children, h.root.eq_withChildren⟩, fun n hn => ?_⟩
  obtain ⟨k, hk, hrest⟩ := h.below n hn
  exact ⟨k, hk, hrest.fields, hrest.component, .inr ⟨hrest.id, hrest.origin⟩⟩

end Tree

end PageEditor
