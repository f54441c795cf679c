import PageEditor.Proofs.Tree.Stems

/-!
# Which nodes remember their places

No edit gives an origin to a node. New nodes and copies have none, and a node that moves forgets its
own and all those below it. So a node that has an origin has been where it is all the time: it has the
origin that was read for its id, its parent is the one it had, and those of its siblings that have
origins too stand in their old order.
-/
set_option autoImplicit false

namespace PageEditor

namespace Node

/-- What tells where a node was read. -/
def mark (n : Node) : String × Option Origin := (n.id, n.origin)

/-- The children that have an origin. -/
def placed (n : Node) : List Node := n.children.filter (·.origin.isSome)

/-- A node without an origin has no child with one. A node with an origin is marked as one of `known`,
and its children with origins are marked as some of that one's, in their order. -/
structure Remembers (known : List Node) (n : Node) : Prop where
  lost : n.origin = none → n.placed = []
  kept : n.origin ≠ none →
    ∃ k ∈ known, n.mark = k.mark ∧ (n.placed.map mark).Sublist (k.placed.map mark)

variable {known : List Node} {n : Node} {f : Node → Node}

theorem map_mark_placed (n : Node) :
    n.placed.map mark = (n.children.map mark).filter (·.2.isSome) := by
  rw [List.filter_map]
  rfl

theorem origin_of_mark {k : Node} (h : n.mark = k.mark) : n.origin = k.origin :=
  congrArg Prod.snd h

theorem Remembers.of_sublist {n' : Node} (h : n.Remembers known) (hmark : n'.mark = n.mark)
    (hplaced : (n'.placed.map mark).Sublist (n.placed.map mark)) : n'.Remembers known := by
  have horigin := origin_of_mark hmark
  refine ⟨fun hnone => ?_, fun hsome => ?_⟩
  · rw [h.lost (horigin.symm.trans hnone), List.map_nil] at hplaced
    exact List.map_eq_nil_iff.1 (List.sublist_nil.1 hplaced)
  · obtain ⟨k, hk, hkmark, hsublist⟩ := h.kept (horigin ▸ hsome)
    exact ⟨k, hk, hmark.trans hkmark, hplaced.trans hsublist⟩

/-! ## Nodes that remember nothing -/

theorem placed_eq_nil (h : ∀ m ∈ n.children, m.origin = none) : n.placed = [] := by
  refine List.filter_eq_nil_iff.2 fun m hm => ?_
  rw [h m hm]
  exact Bool.false_ne_true

theorem remembers_of_none (h : ∀ m ∈ n.nodes, m.origin = none) :
    ∀ m ∈ n.nodes, m.Remembers known := by
  intro m hm
  have hchildren : ∀ c ∈ m.children, c.origin = none := fun c hc =>
    h c (nodes_subset n m hm c (mem_nodes_of_child hc))
  exact ⟨fun _ => placed_eq_nil hchildren, fun hsome => absurd (h m hm) hsome⟩

mutual

theorem origin_copy (taken : List String) (g : IdSource) : (n : Node) →
    ∀ m ∈ (copy taken g n).1.nodes, m.origin = none
  | ⟨id, fields, component, origin, children⟩, m, hm => by
    rcases List.mem_cons.1 hm with rfl | hm
    · rfl
    · exact origin_copyAll taken (g.fresh taken).2 children m hm

theorem origin_copyAll (taken : List String) (g : IdSource) : (ns : List Node) →
    ∀ m ∈ nodesAll (copyAll taken g ns).1, m.origin = none
  | [], m, hm => by cases hm
  | n :: ns, m, hm => by
    rw [copyAll] at hm
    rcases List.mem_append.1 hm with hm | hm
    · exact origin_copy taken g n m hm
    · exact origin_copyAll taken _ ns m hm

end

mutual

theorem origin_forget : (n : Node) → ∀ m ∈ n.forget.nodes, m.origin = none
  | ⟨id, fields, component, origin, children⟩, m, hm => by
    rw [forget, nodes] at hm
    rcases List.mem_cons.1 hm with rfl | hm
    · rfl
    · exact origin_forgetAll children m hm

theorem origin_forgetAll : (ns : List Node) → ∀ m ∈ nodesAll (forgetAll ns), m.origin = none
  | [], m, hm => by cases hm
  | n :: ns, m, hm => by
    rw [forgetAll, nodesAll] at hm
    rcases List.mem_append.1 hm with hm | hm
    · exact origin_forget n m hm
    · exact origin_forgetAll ns m hm

end

/-! ## Forgetful changes -/

/-- A change that keeps what a node remembers of itself and brings nothing that remembers more. -/
structure Forgetful (known : List Node) (f : Node → Node) : Prop where
  mark : ∀ m, (f m).mark = m.mark
  nodes : ∀ m, (∀ k ∈ m.nodes, k.Remembers known) → ∀ k ∈ (f m).nodes, k.Remembers known

mutual

theorem Forgetful.modify? {id : String} (hf : Forgetful known f) :
    (n n' : Node) → n.modify? id f = some n' → (∀ m ∈ n.nodes, m.Remembers known) →
    n'.mark = n.mark ∧ ∀ m ∈ n'.nodes, m.Remembers known
  | ⟨own, fields, component, origin, children⟩, n', hn, h => by
    rw [Node.modify?] at hn
    by_cases hown : own = id
    · rw [if_pos hown] at hn
      cases hn
      exact ⟨hf.mark _, hf.nodes _ h⟩
    · rw [if_neg hown] at hn
      obtain ⟨cs, hcs, rfl⟩ := Option.map_eq_some_iff.1 hn
      rw [Node.nodes] at h
      obtain ⟨hself, hbelow⟩ := List.forall_mem_cons.1 h
      obtain ⟨hmarks, hbelow'⟩ := Forgetful.modifyIn? hf children cs hcs hbelow
      refine ⟨rfl, ?_⟩
      rw [Node.nodes]
      refine List.forall_mem_cons.2 ⟨hself.of_sublist rfl ?_, hbelow'⟩
      rw [map_mark_placed, map_mark_placed]
      exact hmarks ▸ List.Sublist.refl _

theorem Forgetful.modifyIn? {id : String} (hf : Forgetful known f) :
    (ns ns' : List Node) → Node.modifyIn? id f ns = some ns' →
    (∀ m ∈ nodesAll ns, m.Remembers known) →
    ns'.map Node.mark = ns.map Node.mark ∧ ∀ m ∈ nodesAll ns', m.Remembers known
  | [], ns', hns, _ => by cases hns
  | n :: ns, ns', hns, h => by
    rw [nodesAll] at h
    obtain ⟨hn, hback⟩ := List.forall_mem_append.1 h
    rw [Node.modifyIn?] at hns
    cases hm : Node.modify? id f n with
    | some n' =>
      rw [hm] at hns
      cases hns
      obtain ⟨hmark, hfront⟩ := Forgetful.modify? hf n n' hm hn
      rw [nodesAll, List.map_cons, List.map_cons, hmark]
      exact ⟨rfl, List.forall_mem_append.2 ⟨hfront, hback⟩⟩
    | none =>
      rw [hm] at hns
      obtain ⟨ms, hms, rfl⟩ := Option.map_eq_some_iff.1 hns
      obtain ⟨hmarks, hback'⟩ := Forgetful.modifyIn? hf ns ms hms hback
      rw [nodesAll, List.map_cons, List.map_cons, hmarks]
      exact ⟨rfl, List.forall_mem_append.2 ⟨hn, hback'⟩⟩

end

theorem Forgetful.modify {id : String} (hf : Forgetful known f)
    (h : ∀ m ∈ n.nodes, m.Remembers known) :
    (n.modify id f).mark = n.mark ∧ ∀ m ∈ (n.modify id f).nodes, m.Remembers known := by
  rw [Node.modify]
  cases hn : n.modify? id f with
  | none => exact ⟨rfl, h⟩
  | some n' => exact hf.modify? n n' hn h

theorem forgetful_of_children (hmark : ∀ m, (f m).mark = m.mark)
    (hplaced : ∀ m, (f m).placed.Sublist m.placed)
    (hnew : ∀ m, ∀ k ∈ nodesAll (f m).children,
      k ∈ nodesAll m.children ∨ k.Remembers known) : Forgetful known f := by
  refine ⟨hmark, fun m h => ?_⟩
  rw [Node.nodes_eq] at h ⊢
  obtain ⟨hself, hbelow⟩ := List.forall_mem_cons.1 h
  refine List.forall_mem_cons.2 ⟨hself.of_sublist (hmark m) ((hplaced m).map _), fun k hk => ?_⟩
  rcases hnew m k hk with hk | hk
  · exact hbelow k hk
  · exact hk

theorem forgetful_of_keeps (hmark : ∀ m, (f m).mark = m.mark)
    (hchildren : ∀ m, (f m).children = m.children) : Forgetful known f := by
  refine forgetful_of_children hmark (fun m => ?_) fun m k hk => .inl (hchildren m ▸ hk)
  rw [placed, hchildren m]
  exact List.Sublist.refl _

theorem nodesAll_subset_of_sublist {ns ms : List Node} (h : ns.Sublist ms) :
    ∀ k ∈ nodesAll ns, k ∈ nodesAll ms := by
  intro k hk
  obtain ⟨c, hc, hkc⟩ := mem_nodesAll_iff.1 hk
  exact mem_nodesAll_iff.2 ⟨c, h.subset hc, hkc⟩

theorem forgetful_dropChildren (id : String) : Forgetful known (dropChildren id) :=
  forgetful_of_children (fun _ => rfl) (fun _ => List.filter_sublist.filter _) fun _ _ hk =>
    .inl (nodesAll_subset_of_sublist List.filter_sublist _ hk)

theorem forgetful_eraseChild (id : String) : Forgetful known (eraseChild id) :=
  forgetful_of_children (fun _ => rfl) (fun _ => List.eraseP_sublist.filter _) fun _ _ hk =>
    .inl (nodesAll_subset_of_sublist List.eraseP_sublist _ hk)

theorem forgetful_insertChild (index : Node → Nat) {child : Node}
    (hchild : ∀ m ∈ child.nodes, m.origin = none) :
    Forgetful known fun m => m.insertChild (index m) child := by
  have hnone : child.origin.isSome = false := by
    rw [hchild child child.mem_nodes_self]
    rfl
  refine forgetful_of_children (fun _ => rfl) (fun m => ?_) fun m k hk => ?_
  · have hsame := filter_insertIdx_of_neg (p := fun m : Node => m.origin.isSome) hnone m.children
      (min (index m) m.children.length)
    rw [placed, insertChild, hsame]
    exact List.Sublist.refl _
  · obtain ⟨c, hc, hkc⟩ := mem_nodesAll_iff.1 hk
    rcases (List.mem_insertIdx (Nat.min_le_right _ _)).1 hc with rfl | hc
    · exact .inr (remembers_of_none hchild k hkc)
    · exact .inl (mem_nodesAll_iff.2 ⟨c, hc, hkc⟩)

theorem forgetful_append {more : List Node} (hmore : ∀ m ∈ nodesAll more, m.origin = none) :
    Forgetful known fun m => { m with children := m.children ++ more } := by
  have hnone : more.filter (·.origin.isSome) = [] := by
    refine List.filter_eq_nil_iff.2 fun c hc => ?_
    rw [hmore c (mem_nodesAll_iff.2 ⟨c, hc, c.mem_nodes_self⟩)]
    exact Bool.false_ne_true
  refine forgetful_of_children (fun _ => rfl) (fun m => ?_) fun m k hk => ?_
  · rw [placed, List.filter_append, hnone, List.append_nil]
    exact List.Sublist.refl _
  · rw [nodesAll_append] at hk
    rcases List.mem_append.1 hk with hk | hk
    · exact .inl hk
    · obtain ⟨c, hc, hkc⟩ := mem_nodesAll_iff.1 hk
      refine .inr (remembers_of_none (fun m hm => ?_) k hkc)
      exact hmore m (mem_nodesAll_iff.2 ⟨c, hc, hm⟩)

end Node

namespace Tree

open Node (Forgetful)

/-! ## Edited trees -/

/-- The root is marked as that of `t₀`, and every node remembers no more than a node of `t₀`. -/
structure Remembers (t₀ t : Tree) : Prop where
  root : t.root.mark = t₀.root.mark
  nodes : ∀ n ∈ t.root.nodes, n.Remembers t₀.root.nodes

variable {t₀ t : Tree}

theorem Remembers.refl (h : ∀ n ∈ t.root.nodes, n.origin.isSome) : t.Remembers t := by
  refine ⟨rfl, fun n hn => ⟨fun hnone => ?_, fun _ => ⟨n, hn, rfl, List.Sublist.refl _⟩⟩⟩
  have hsome := h n hn
  rw [hnone] at hsome
  cases hsome

theorem Remembers.withIds (h : t₀.Remembers t) (ids : IdSource) :
    t₀.Remembers { t with ids } := ⟨h.root, h.nodes⟩

theorem Remembers.edit (h : t₀.Remembers t) {f : Node → Node}
    (hf : Forgetful t₀.root.nodes f) : t₀.Remembers (t.edit f) :=
  ⟨(hf.mark t.root).trans h.root, hf.nodes t.root h.nodes⟩

theorem Remembers.modify (h : t₀.Remembers t) {f : Node → Node}
    (hf : Forgetful t₀.root.nodes f) (id : String) : t₀.Remembers (t.modify id f) := by
  obtain ⟨hmark, hnodes⟩ := hf.modify h.nodes
  exact ⟨hmark.trans h.root, hnodes⟩

theorem Remembers.editNode (h : t₀.Remembers t) {f : Node → Node}
    (hf : Forgetful t₀.root.nodes f) (id : String) : t₀.Remembers (t.editNode id f) := by
  obtain ⟨hroot, hnodes⟩ := h.modify hf id
  exact ⟨hroot, hnodes⟩

/-! ## The five edits -/

theorem Remembers.add (h : t₀.Remembers t) (d : Defaults) (parentId type : String)
    (index : Option Nat) (text : Option String) (attributes : List (String × String)) :
    t₀.Remembers (t.add d parentId type index text attributes).2 := by
  unfold Tree.add
  split
  · exact h
  · split
    · exact h
    · refine (h.withIds _).editNode (Node.forgetful_insertChild (fun _ => _) fun m hm => ?_) parentId
      rw [List.mem_singleton.1 hm]
      rfl

theorem Remembers.duplicate (h : t₀.Remembers t) (id : String) :
    t₀.Remembers (t.duplicate id).2 := by
  unfold Tree.duplicate
  split
  · exact h
  · rename_i n _
    split
    · exact (h.withIds _).edit (Node.forgetful_append (Node.origin_copyAll _ _ n.children))
    · split
      · exact h
      · exact (h.withIds _).editNode
          (Node.forgetful_insertChild (fun _ => _) (Node.origin_copy _ _ n)) _

theorem Remembers.delete (h : t₀.Remembers t) (id : String) : t₀.Remembers (t.delete id).2 := by
  unfold Tree.delete
  split
  · exact h
  · split
    · exact h
    · exact h.editNode (Node.forgetful_dropChildren id) _

theorem Remembers.move (h : t₀.Remembers t) (ht : t.Indexed) (source target : String)
    (position : DropPosition) : t₀.Remembers (t.move source target position).2 := by
  cases hplan : t.planMove source target position with
  | error e =>
    rw [Tree.move, hplan]
    exact h
  | ok plan =>
    obtain ⟨fromId, d⟩ := plan
    obtain ⟨n, _, _, _, hmove⟩ := ht.move_eq hplan
    rw [hmove]
    refine (h.editNode (Node.forgetful_eraseChild source) fromId).editNode ?_ d.parent
    exact Node.forgetful_insertChild (fun p => d.anchor.index p.children) (Node.origin_forget n)

theorem Remembers.update (h : t₀.Remembers t) (n : Node) : t₀.Remembers (t.update n).2 := by
  unfold Tree.update
  split
  · exact h
  · split
    · exact h
    · have hassign : Forgetful t₀.root.nodes (·.assign n) :=
        Node.forgetful_of_keeps (fun _ => rfl) fun _ => rfl
      exact h.modify hassign n.id

theorem Remembers.apply (h : t₀.Remembers t) (ht : t.Indexed) (d : Defaults) (c : Command) :
    t₀.Remembers (c.apply d t).2 := by
  cases c with
  | add parentId type index text attributes => exact h.add d parentId type _ text _
  | duplicate id => exact h.duplicate id
  | delete id => exact h.delete id
  | move source target position => exact h.move ht source target position
  | update n => exact h.update n

end Tree

end PageEditor
