import PageEditor.Proofs.Tree.Edits

/-!
# Where nodes come from

Deleting, duplicating and moving make no nodes of their own. Each node below the root of the edited
tree has the fields of a node of the tree before, and either that node's id and origin or no origin
at all, and the root only ever changes its children.
-/
set_option autoImplicit false

namespace PageEditor

namespace Node

/-- The node has the fields of one of `known`, and its origin too unless it has none. -/
def StemsFrom (known : List Node) (n : Node) : Prop :=
  ∃ k ∈ known, n.fields = k.fields ∧ n.component = k.component ∧
    (n.origin = none ∨ n.id = k.id ∧ n.origin = k.origin)

variable {known : List Node} {n : Node}

theorem StemsFrom.of_mem (h : n ∈ known) : n.StemsFrom known :=
  ⟨n, h, rfl, rfl, .inr ⟨rfl, rfl⟩⟩

theorem StemsFrom.forgotten (h : n.StemsFrom known) (id : String) (children : List Node) :
    StemsFrom known ⟨id, n.fields, n.component, none, children⟩ := by
  obtain ⟨k, hk, hfields, hcomponent, _⟩ := h
  exact ⟨k, hk, hfields, hcomponent, .inl rfl⟩

/-! ## Copies -/

mutual

theorem stemsFrom_copy (taken : List String) (g : IdSource) : (n : Node) →
    (∀ m ∈ n.nodes, m.StemsFrom known) → ∀ m ∈ (copy taken g n).1.nodes, m.StemsFrom known
  | ⟨id, fields, component, origin, children⟩, h, m, hm => by
    rw [nodes] at h
    rcases List.mem_cons.1 hm with rfl | hm
    · exact (h _ List.mem_cons_self).forgotten _ _
    · exact stemsFrom_copyAll taken (g.fresh taken).2 children
        (fun k hk => h k (List.mem_cons_of_mem _ hk)) m hm

theorem stemsFrom_copyAll (taken : List String) (g : IdSource) : (ns : List Node) →
    (∀ m ∈ nodesAll ns, m.StemsFrom known) →
    ∀ m ∈ nodesAll (copyAll taken g ns).1, m.StemsFrom known
  | [], _, m, hm => by cases hm
  | n :: ns, h, m, hm => by
    rw [nodesAll] at h
    rw [copyAll] at hm
    rcases List.mem_append.1 hm with hm | hm
    · exact stemsFrom_copy taken g n (fun k hk => h k (List.mem_append_left _ hk)) m hm
    · exact stemsFrom_copyAll taken _ ns (fun k hk => h k (List.mem_append_right _ hk)) m hm

end

mutual

theorem stemsFrom_forget : (n : Node) → (∀ m ∈ n.nodes, m.StemsFrom known) →
    ∀ m ∈ n.forget.nodes, m.StemsFrom known
  | ⟨id, fields, component, origin, children⟩, h, m, hm => by
    rw [nodes] at h
    rw [forget, nodes] at hm
    rcases List.mem_cons.1 hm with rfl | hm
    · exact (h _ List.mem_cons_self).forgotten _ _
    · exact stemsFrom_forgetAll children (fun k hk => h k (List.mem_cons_of_mem _ hk)) m hm

theorem stemsFrom_forgetAll : (ns : List Node) → (∀ m ∈ nodesAll ns, m.StemsFrom known) →
    ∀ m ∈ nodesAll (forgetAll ns), m.StemsFrom known
  | [], _, m, hm => by cases hm
  | n :: ns, h, m, hm => by
    rw [nodesAll] at h
    rw [forgetAll, nodesAll] at hm
    rcases List.mem_append.1 hm with hm | hm
    · exact stemsFrom_forget n (fun k hk => h k (List.mem_append_left _ hk)) m hm
    · exact stemsFrom_forgetAll ns (fun k hk => h k (List.mem_append_right _ hk)) m hm

end

/-! ## Changes of children -/

theorem exists_children (n : Node) : ∃ children, n = { n with children } := by
  obtain ⟨id, fields, component, origin, children⟩ := n
  exact ⟨children, rfl⟩

theorem nodesAll_append (ns ms : List Node) : nodesAll (ns ++ ms) = nodesAll ns ++ nodesAll ms := by
  induction ns with
  | nil => rfl
  | cons n ns ih => rw [List.cons_append, nodesAll, ih, nodesAll, List.append_assoc]

theorem mem_nodesAll_iff {ns : List Node} {m : Node} : m ∈ nodesAll ns ↔ ∃ n ∈ ns, m ∈ n.nodes := by
  induction ns with
  | nil => simp [nodesAll]
  | cons n ns ih => simp [nodesAll, ih]

/-- A change of the children that brings no node from elsewhere. -/
structure Rearranges (known : List Node) (f : Node → Node) : Prop where
  head : ∀ m, ∃ children, f m = { m with children }
  below : ∀ m, (∀ k ∈ nodesAll m.children, k.StemsFrom known) →
    ∀ k ∈ nodesAll (f m).children, k.StemsFrom known

mutual

theorem Rearranges.modify? {id : String} {f : Node → Node} (hf : Rearranges known f) :
    (n n' : Node) → n.modify? id f = some n' → (∀ m ∈ nodesAll n.children, m.StemsFrom known) →
    (∃ children, n' = { n with children }) ∧ ∀ m ∈ nodesAll n'.children, m.StemsFrom known
  | ⟨own, fields, component, origin, children⟩, n', hn, h => by
    rw [Node.modify?] at hn
    by_cases hown : own = id
    · rw [if_pos hown] at hn
      cases hn
      exact ⟨hf.head _, hf.below _ h⟩
    · rw [if_neg hown] at hn
      obtain ⟨cs, hcs, rfl⟩ := Option.map_eq_some_iff.1 hn
      exact ⟨⟨cs, rfl⟩, Rearranges.modifyIn? hf children cs hcs h⟩

theorem Rearranges.modifyIn? {id : String} {f : Node → Node} (hf : Rearranges known f) :
    (ns ns' : List Node) → Node.modifyIn? id f ns = some ns' →
    (∀ m ∈ nodesAll ns, m.StemsFrom known) → ∀ m ∈ nodesAll ns', m.StemsFrom known
  | [], ns', hns, _ => by cases hns
  | n :: ns, ns', hns, h => by
    rw [nodesAll, nodes_eq] at h
    obtain ⟨hn, hback⟩ := List.forall_mem_append.1 h
    obtain ⟨hhead, hbelow⟩ := List.forall_mem_cons.1 hn
    rw [Node.modifyIn?] at hns
    cases hm : Node.modify? id f n with
    | some n' =>
      rw [hm] at hns
      cases hns
      obtain ⟨⟨cs, hn'⟩, hbelow'⟩ := Rearranges.modify? hf n n' hm hbelow
      rw [nodesAll, nodes_eq]
      refine List.forall_mem_append.2 ⟨List.forall_mem_cons.2 ⟨?_, hbelow'⟩, hback⟩
      rw [hn']
      exact hhead
    | none =>
      rw [hm] at hns
      obtain ⟨ms, hms, rfl⟩ := Option.map_eq_some_iff.1 hns
      rw [nodesAll, nodes_eq]
      exact List.forall_mem_append.2 ⟨hn, Rearranges.modifyIn? hf ns ms hms hback⟩

end

theorem Rearranges.modify {id : String} {f : Node → Node} (hf : Rearranges known f)
    (h : ∀ m ∈ nodesAll n.children, m.StemsFrom known) :
    (∃ children, n.modify id f = { n with children }) ∧
      ∀ m ∈ nodesAll (n.modify id f).children, m.StemsFrom known := by
  rw [Node.modify]
  cases hn : n.modify? id f with
  | none => exact ⟨n.exists_children, h⟩
  | some n' => exact hf.modify? n n' hn h

theorem rearranges_dropChildren (id : String) : Rearranges known (dropChildren id) := by
  refine ⟨fun m => ⟨_, rfl⟩, ?_⟩
  intro m h k hk
  obtain ⟨c, hc, hkc⟩ := mem_nodesAll_iff.1 hk
  exact h k (mem_nodesAll_iff.2 ⟨c, (List.mem_filter.1 hc).1, hkc⟩)

theorem rearranges_eraseChild (id : String) : Rearranges known (eraseChild id) := by
  refine ⟨fun m => ⟨_, rfl⟩, ?_⟩
  intro m h k hk
  obtain ⟨c, hc, hkc⟩ := mem_nodesAll_iff.1 hk
  exact h k (mem_nodesAll_iff.2 ⟨c, List.mem_of_mem_eraseP hc, hkc⟩)

theorem rearranges_insertChild (index : Node → Nat) {child : Node}
    (hchild : ∀ m ∈ child.nodes, m.StemsFrom known) :
    Rearranges known fun m => m.insertChild (index m) child := by
  refine ⟨fun m => ⟨_, rfl⟩, ?_⟩
  intro m h k hk
  obtain ⟨c, hc, hkc⟩ := mem_nodesAll_iff.1 hk
  rcases (List.mem_insertIdx (Nat.min_le_right _ _)).1 hc with rfl | hc
  · exact hchild k hkc
  · exact h k (mem_nodesAll_iff.2 ⟨c, hc, hkc⟩)

end Node

/-! ## Edited trees -/

namespace Tree

open Node (nodesAll Rearranges)

/-- The root of `t` is that of `t₀` but for its children, and all nodes below it stem from nodes below
the root of `t₀`. -/
structure StemsFrom (t₀ t : Tree) : Prop where
  root : ∃ children, t.root = { t₀.root with children }
  below : ∀ n ∈ nodesAll t.root.children, n.StemsFrom (nodesAll t₀.root.children)

theorem StemsFrom.refl (t : Tree) : t.StemsFrom t :=
  ⟨t.root.exists_children, fun _ hn => .of_mem hn⟩

variable {t₀ t : Tree}

theorem StemsFrom.editNode (h : t₀.StemsFrom t) {f : Node → Node}
    (hf : Rearranges (nodesAll t₀.root.children) f) (id : String) : t₀.StemsFrom (t.editNode id f) := by
  obtain ⟨cs, hroot⟩ := h.root
  obtain ⟨⟨cs', hmodify⟩, hbelow⟩ := hf.modify h.below
  refine ⟨⟨cs', ?_⟩, hbelow⟩
  show t.root.modify id f = _
  rw [hmodify, hroot]

theorem StemsFrom.of_find? (h : t₀.StemsFrom t) (ht : t.WellFormed) {id : String} {n : Node}
    (hn : t.find? id = some n) (hid : id ≠ rootId) :
    ∀ m ∈ n.nodes, m.StemsFrom (nodesAll t₀.root.children) := by
  have hmem := Node.mem_nodes_of_find? hn
  rw [Node.nodes_eq] at hmem
  rcases List.mem_cons.1 hmem with rfl | hmem
  · exact absurd ((Node.id_of_find? hn).symm.trans ht.root_id) hid
  · exact fun m hm => h.below m (Node.nodesAll_subset _ n hmem m hm)

theorem StemsFrom.withIds (h : t₀.StemsFrom t) (ids : IdSource) : t₀.StemsFrom { t with ids } :=
  ⟨h.root, h.below⟩

theorem StemsFrom.duplicate (h : t₀.StemsFrom t) (ht : t.WellFormed) (id : String) :
    t₀.StemsFrom (t.duplicate id).2 := by
  unfold Tree.duplicate
  cases hfind : t.find? id with
  | none => exact h
  | some n =>
    simp only
    split
    · rename_i hroot
      obtain ⟨cs, hcs⟩ := h.root
      have hn : n = t.root := by
        have hmem := Node.find?_of_mem ht.nodup t.root.mem_nodes_self
        have hid : t.root.id = id := by
          rw [ht.root_id, ← Node.id_of_find? hfind]
          exact (beq_iff_eq.1 hroot).symm
        rw [hid] at hmem
        exact Option.some.inj (hfind.symm.trans hmem)
      subst hn
      have hcopies := Node.stemsFrom_copyAll t.takenIds t.ids t.root.children h.below
      refine ⟨⟨t.root.children ++ (Node.copyAll t.takenIds t.ids t.root.children).1, ?_⟩, ?_⟩
      · simp only [Tree.edit, reindex, hcs]
      · intro m hm
        have hsplit : nodesAll (t.root.children ++
            (Node.copyAll t.takenIds t.ids t.root.children).1) = _ := Node.nodesAll_append _ _
        rcases List.mem_append.1 (hsplit ▸ hm) with hm | hm
        · exact h.below m hm
        · exact hcopies m hm
    · rename_i hroot
      cases hparent : t.parentId? id with
      | none => exact h
      | some parentId =>
        have hid : id ≠ rootId := ht.indexed.ne_root hparent
        refine (h.withIds _).editNode (Node.rearranges_insertChild (fun _ => _) ?_) parentId
        exact Node.stemsFrom_copy t.takenIds t.ids n (h.of_find? ht hfind hid)

theorem StemsFrom.delete (h : t₀.StemsFrom t) (id : String) : t₀.StemsFrom (t.delete id).2 := by
  unfold Tree.delete
  by_cases hroot : id = rootId
  · rw [if_pos hroot]
    exact h
  · rw [if_neg hroot]
    cases t.parentId? id with
    | none => exact h
    | some parentId => exact h.editNode (Node.rearranges_dropChildren id) parentId

theorem StemsFrom.move (h : t₀.StemsFrom t) (ht : t.WellFormed) (source target : String)
    (position : DropPosition) : t₀.StemsFrom (t.move source target position).2 := by
  cases hplan : t.planMove source target position with
  | error e =>
    rw [Tree.move, hplan]
    exact h
  | ok plan =>
    obtain ⟨fromId, d⟩ := plan
    obtain ⟨n, hn, _, _, hmove⟩ := ht.indexed.move_eq hplan
    have hsource := ht.indexed.ne_root (planMove_eq_ok hplan).1
    rw [hmove]
    refine (h.editNode (Node.rearranges_eraseChild source) fromId).editNode ?_ d.parent
    exact Node.rearranges_insertChild (fun p => d.anchor.index p.children)
      (Node.stemsFrom_forget n (h.of_find? ht hn hsource))

end Tree

/-! ## Commands -/

/-- Whether a command only deletes, copies or moves nodes. -/
def Command.rearranges : Command → Bool
  | .duplicate _ | .delete _ | .move _ _ _ => true
  | .add .. | .update _ => false

theorem Tree.StemsFrom.apply {t₀ t : Tree} (h : t₀.StemsFrom t) (ht : t.WellFormed) (d : Defaults)
    {c : Command} (hc : c.rearranges = true) : t₀.StemsFrom (c.apply d t).2 := by
  cases c with
  | duplicate id => exact h.duplicate ht id
  | delete id => exact h.delete id
  | move source target position => exact h.move ht source target position
  | add => cases hc
  | update => cases hc

end PageEditor
