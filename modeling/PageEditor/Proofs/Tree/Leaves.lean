import PageEditor.Proofs.Tree.Moves
import PageEditor.Proofs.Tree.Stems

/-!
# Leaves

Text runs and raw expressions hold no children. Adding and moving look at the type of the node that
is to hold another one, and what has a child already is no leaf, so these edits, copying and deleting
keep every leaf empty. An update does not look at the children of the node whose type it changes.
-/
set_option autoImplicit false

namespace PageEditor

/-! ## Nodes without filled leaves -/

namespace Node

/-- Every text run and every raw expression among the node and those below it is empty. -/
def Leafy (n : Node) : Prop := ∀ m ∈ n.nodes, m.isLeaf = true → m.children = []

variable {n m child : Node}

theorem leafy_iff :
    n.Leafy ↔ (n.isLeaf = true → n.children = []) ∧ ∀ c ∈ n.children, c.Leafy := by
  constructor
  · refine fun h => ⟨h n n.mem_nodes_self, fun c hc m hm => h m ?_⟩
    exact nodes_subset n c (mem_nodes_of_child hc) m hm
  · rintro ⟨hself, hchildren⟩ m hm
    rw [nodes_eq] at hm
    rcases List.mem_cons.1 hm with rfl | hm
    · exact hself
    · obtain ⟨c, hc, hmc⟩ := mem_nodesAll_iff.1 hm
      exact hchildren c hc m hmc

theorem Leafy.of_mem (h : n.Leafy) (hm : m ∈ n.nodes) : m.Leafy :=
  fun k hk => h k (nodes_subset n m hm k hk)

theorem leafy_of_children_nil (h : n.children = []) : n.Leafy :=
  leafy_iff.2 ⟨fun _ => h, by simp [h]⟩

theorem Leafy.isLeaf_of_child (h : n.Leafy) (hm : m ∈ n.children) : n.isLeaf = false := by
  cases hleaf : n.isLeaf with
  | false => rfl
  | true => simp [(leafy_iff.1 h).1 hleaf] at hm

theorem Leafy.of_subset (h : n.Leafy) {children : List Node} (hsub : children.Sublist n.children) :
    Leafy { n with children } := by
  obtain ⟨hself, hchildren⟩ := leafy_iff.1 h
  refine leafy_iff.2 ⟨fun hleaf => ?_, fun c hc => hchildren c (hsub.subset hc)⟩
  exact List.sublist_nil.1 (hself hleaf ▸ hsub)

theorem Leafy.dropChildren (h : n.Leafy) (id : String) : (n.dropChildren id).Leafy :=
  h.of_subset List.filter_sublist

theorem Leafy.eraseChild (h : n.Leafy) (id : String) : (n.eraseChild id).Leafy :=
  h.of_subset List.eraseP_sublist

theorem Leafy.insertChild (h : n.Leafy) (hn : n.isLeaf = false) (hchild : child.Leafy)
    (index : Nat) : (n.insertChild index child).Leafy := by
  refine leafy_iff.2 ⟨fun hleaf => ?_, fun c hc => ?_⟩
  · exact absurd (hn.symm.trans hleaf) Bool.false_ne_true
  · rcases (List.mem_insertIdx (Nat.min_le_right _ _)).1 hc with rfl | hc
    · exact hchild
    · exact (leafy_iff.1 h).2 c hc

mutual

theorem Leafy.modify? {id : String} {f : Node → Node} : (n n' : Node) → n.modify? id f = some n' →
    (∀ m, n.find? id = some m → (f m).Leafy) → n.Leafy → n'.Leafy
  | ⟨own, fields, component, origin, children⟩, n', hn, hf, h => by
    rw [Node.modify?] at hn
    rw [find?] at hf
    by_cases hown : own = id
    · rw [if_pos hown] at hn hf
      cases hn
      exact hf _ rfl
    · rw [if_neg hown] at hn hf
      obtain ⟨cs, hcs, rfl⟩ := Option.map_eq_some_iff.1 hn
      obtain ⟨hself, hchildren⟩ := leafy_iff.1 h
      refine leafy_iff.2 ⟨fun hleaf => ?_, Leafy.modifyIn? children cs hcs hf hchildren⟩
      -- a leaf holds no node that could have been changed
      have hnil : children = [] := hself hleaf
      rw [hnil, Node.modifyIn?] at hcs
      cases hcs

theorem Leafy.modifyIn? {id : String} {f : Node → Node} : (ns ns' : List Node) →
    Node.modifyIn? id f ns = some ns' → (∀ m, findIn? id ns = some m → (f m).Leafy) →
    (∀ n ∈ ns, n.Leafy) → ∀ n ∈ ns', n.Leafy
  | [], ns', hns, _, _ => by cases hns
  | n :: ns, ns', hns, hf, h => by
    obtain ⟨hn, hback⟩ := List.forall_mem_cons.1 h
    rw [Node.modifyIn?] at hns
    rw [findIn?] at hf
    cases hm : Node.modify? id f n with
    | some n' =>
      rw [hm] at hns
      cases hns
      have hn' := Leafy.modify? n n' hm (fun m hfind => hf m (by rw [hfind, Option.some_or])) hn
      exact List.forall_mem_cons.2 ⟨hn', hback⟩
    | none =>
      rw [hm] at hns
      obtain ⟨ms, hms, rfl⟩ := Option.map_eq_some_iff.1 hns
      rw [(modify?_eq_none_iff id f n).1 hm, Option.none_or] at hf
      exact List.forall_mem_cons.2 ⟨hn, Leafy.modifyIn? ns ms hms hf hback⟩

end

theorem Leafy.modify (h : n.Leafy) {id : String} {f : Node → Node}
    (hf : ∀ m, n.find? id = some m → m.Leafy → (f m).Leafy) : (n.modify id f).Leafy := by
  rw [Node.modify]
  cases hn : n.modify? id f with
  | none => exact h
  | some n' =>
    exact Leafy.modify? n n' hn (fun m hm => hf m hm (h.of_mem (mem_nodes_of_find? hm))) h

mutual

theorem Leafy.copy (taken : List String) (g : IdSource) : (n : Node) → n.Leafy →
    (Node.copy taken g n).1.Leafy
  | ⟨id, fields, component, origin, children⟩, h => by
    obtain ⟨hself, hchildren⟩ := leafy_iff.1 h
    refine leafy_iff.2 ⟨fun hleaf => ?_, ?_⟩
    · have hnil : children = [] := hself hleaf
      rw [hnil]
      rfl
    · exact Leafy.copyAll taken (g.fresh taken).2 children hchildren

theorem Leafy.copyAll (taken : List String) (g : IdSource) : (ns : List Node) →
    (∀ n ∈ ns, n.Leafy) → ∀ n ∈ (Node.copyAll taken g ns).1, n.Leafy
  | [], _, n, hn => by cases hn
  | m :: ns, h, n, hn => by
    obtain ⟨hm, hback⟩ := List.forall_mem_cons.1 h
    rw [Node.copyAll] at hn
    rcases List.mem_cons.1 hn with rfl | hn
    · exact Leafy.copy taken g m hm
    · exact Leafy.copyAll taken _ ns hback n hn

end

mutual

theorem Leafy.forget : (n : Node) → n.Leafy → n.forget.Leafy
  | ⟨id, fields, component, origin, children⟩, h => by
    obtain ⟨hself, hchildren⟩ := leafy_iff.1 h
    rw [Node.forget]
    refine leafy_iff.2 ⟨fun hleaf => ?_, Leafy.forgetAll children hchildren⟩
    have hnil : children = [] := hself hleaf
    rw [hnil, Node.forgetAll]

theorem Leafy.forgetAll : (ns : List Node) → (∀ n ∈ ns, n.Leafy) →
    ∀ n ∈ Node.forgetAll ns, n.Leafy
  | [], _, n, hn => by cases hn
  | m :: ns, h, n, hn => by
    obtain ⟨hm, hback⟩ := List.forall_mem_cons.1 h
    rw [Node.forgetAll] at hn
    rcases List.mem_cons.1 hn with rfl | hn
    · exact Leafy.forget m hm
    · exact Leafy.forgetAll ns hback n hn

end

end Node

/-! ## Edits -/

namespace Tree

variable {t : Tree}

/-- Every text run and every raw expression of the tree is empty. -/
def Leafy (t : Tree) : Prop := t.root.Leafy

theorem WellFormed.isLeaf_root (h : t.WellFormed) : t.root.isLeaf = false := by
  simp only [Node.isLeaf, Node.isText, Node.isExpression, h.root_type]
  decide

theorem Leafy.of_find? (h : t.Leafy) {id : String} {n : Node} (hn : t.find? id = some n) :
    n.Leafy :=
  Node.Leafy.of_mem h (Node.mem_nodes_of_find? hn)

theorem Leafy.isLeaf_of_parent (h : t.Leafy) (ht : t.Indexed) {id parent : String} {p : Node}
    (hid : t.parentId? id = some parent) (hp : t.find? parent = some p) : p.isLeaf = false := by
  obtain ⟨q, c, hq, _, hc, _⟩ := ht.parent_holds hid
  cases hp.symm.trans hq
  exact (h.of_find? hp).isLeaf_of_child hc

theorem Leafy.isLeaf_of_place (h : t.Leafy) (ht : t.WellFormed) {target p : Node}
    {position : DropPosition} {d : Destination} (hd : t.place? target position = some d)
    (htarget : t.find? target.id = some target) (hp : t.find? d.parent = some p) :
    p.isLeaf = false := by
  cases position with
  | before =>
    obtain ⟨q, hq, rfl⟩ := Option.map_eq_some_iff.1 hd
    exact h.isLeaf_of_parent ht.indexed hq hp
  | after =>
    obtain ⟨q, hq, rfl⟩ := Option.map_eq_some_iff.1 hd
    exact h.isLeaf_of_parent ht.indexed hq hp
  | inside =>
    cases hleaf : target.isLeaf with
    | true => simp [place?, hleaf] at hd
    | false =>
      simp only [place?, hleaf, Bool.false_eq_true, if_false, Option.some.injEq] at hd
      subst hd
      cases htarget.symm.trans hp
      exact hleaf
  | outside =>
    obtain ⟨q, hq, hd⟩ := Option.bind_eq_some_iff.1 hd
    obtain ⟨above, habove, hd⟩ := Option.bind_eq_some_iff.1 hd
    cases hd
    exact h.isLeaf_of_parent ht.indexed habove hp
  | root =>
    cases hd
    have hroot : t.find? rootId = some t.root := by
      rw [← ht.root_id]
      exact Node.find?_of_mem ht.nodup t.root.mem_nodes_self
    cases hroot.symm.trans hp
    exact ht.isLeaf_root

theorem Leafy.editNode (h : t.Leafy) {id : String} {f : Node → Node}
    (hf : ∀ m, t.find? id = some m → m.Leafy → (f m).Leafy) : (t.editNode id f).Leafy :=
  Node.Leafy.modify h hf

theorem Leafy.add (h : t.Leafy) (d : Defaults) (parentId type : String) (index : Option Nat)
    (text : Option String) (attributes : List (String × String)) :
    (t.add d parentId type index text attributes).2.Leafy := by
  unfold Tree.add
  cases hfind : t.find? parentId with
  | none => exact h
  | some p =>
    simp only
    split
    · exact h
    · rename_i hleaf
      refine Leafy.editNode (t := t.freshId.2) h fun m hm hmleafy => ?_
      cases hm.symm.trans hfind
      exact hmleafy.insertChild (Bool.eq_false_iff.2 hleaf) (Node.leafy_of_children_nil rfl) _

theorem Leafy.duplicate (h : t.Leafy) (ht : t.WellFormed) (id : String) :
    (t.duplicate id).2.Leafy := by
  unfold Tree.duplicate
  cases hfind : t.find? id with
  | none => exact h
  | some n =>
    simp only
    split
    · obtain ⟨-, hchildren⟩ := Node.leafy_iff.1 h
      have hn := (Node.leafy_iff.1 (h.of_find? hfind)).2
      refine Node.leafy_iff.2 ⟨fun hleaf => ?_, fun c hc => ?_⟩
      · exact absurd (ht.isLeaf_root.symm.trans hleaf) Bool.false_ne_true
      · rcases List.mem_append.1 hc with hc | hc
        · exact hchildren c hc
        · exact Node.Leafy.copyAll t.takenIds t.ids n.children hn c hc
    · cases hparent : t.parentId? id with
      | none => exact h
      | some parentId =>
        refine Leafy.editNode (t := { t with ids := _ }) h fun m hm hmleafy => ?_
        exact hmleafy.insertChild (h.isLeaf_of_parent ht.indexed hparent hm)
          (Node.Leafy.copy t.takenIds t.ids n (h.of_find? hfind)) _

theorem Leafy.delete (h : t.Leafy) (id : String) : (t.delete id).2.Leafy := by
  unfold Tree.delete
  by_cases hroot : id = rootId
  · rw [if_pos hroot]
    exact h
  · rw [if_neg hroot]
    cases t.parentId? id with
    | none => exact h
    | some parentId => exact h.editNode fun m _ hm => hm.dropChildren id

theorem Leafy.move (h : t.Leafy) (ht : t.WellFormed) (source target : String)
    (position : DropPosition) : (t.move source target position).2.Leafy := by
  cases hplan : t.planMove source target position with
  | error e =>
    rw [Tree.move, hplan]
    exact h
  | ok plan =>
    obtain ⟨fromId, d⟩ := plan
    obtain ⟨hadmits, hout⟩ := (ht.indexed.planMove_iff source target position).2.1 ⟨_, hplan⟩
    obtain ⟨k, hk, hd⟩ := (planMove_eq_ok hplan).2.1
    obtain rfl := Node.id_of_find? hk
    obtain ⟨n, left, hleft, hedit, hdest, hmove⟩ := ht.indexed.exists_lifted hplan
    have hleafy : left.Leafy := hedit ▸ h.editNode fun m _ hm => hm.eraseChild source
    -- The destination is not in the subtree, so it has its fields still.
    have hfar : ¬ t.InSubtree source d.parent := fun hsub =>
      hout (ht.indexed.inSubtree_of_place hadmits.not_root hd hsub)
    obtain ⟨p, hp⟩ := Node.exists_find? (ht.indexed.place_mem (Node.id_mem_of_find? hk) hd)
    obtain ⟨q, hq, hsame⟩ :=
      ht.indexed.find?_of_without hleft.indexed hleft.rest hadmits.not_root hfar hp
    have htype : q.isLeaf = p.isLeaf := by
      have hfields := congrArg Node.isLeaf hsame
      rwa [Node.without_eq, Node.without_eq source p] at hfields
    rw [hmove]
    refine hleafy.editNode fun m hm hmleafy => ?_
    cases hm.symm.trans hq
    exact hmleafy.insertChild (htype.trans (h.isLeaf_of_place ht hd hk hp))
      (Node.Leafy.forget n (h.of_find? hleft.node)) _

/-- An update fills a leaf exactly if it gives the type of a leaf to a node with children. -/
theorem Leafy.update_iff (h : t.Leafy) (n : Node) :
    (t.update n).2.Leafy ↔
      (n.id ≠ rootId → n.isLeaf = true → ∀ m, t.find? n.id = some m → m.children = []) := by
  unfold Tree.update
  by_cases hroot : n.id = rootId
  · simp only [if_pos hroot]
    exact ⟨fun _ hne => absurd hroot hne, fun _ => h⟩
  · rw [if_neg hroot]
    cases hfind : t.find? n.id with
    | none =>
      refine ⟨fun _ _ _ m hm => ?_, fun _ => h⟩
      cases hm
    | some k =>
      have hfound : (t.root.modify n.id (·.assign n)).find? n.id = some (k.assign n) :=
        Node.find?_modify (f := (·.assign n)) (fun _ => rfl) hfind
      constructor
      · rintro hupdated - hleaf m hm
        cases hm
        exact (Node.leafy_iff.1 (Leafy.of_find? hupdated hfound)).1 hleaf
      · intro hempty
        refine Node.Leafy.modify h fun m hm hmleafy => ?_
        cases hm.symm.trans hfind
        exact Node.leafy_iff.2 ⟨fun hleaf => hempty hroot hleaf k rfl, (Node.leafy_iff.1 hmleafy).2⟩

end Tree

/-! ## Commands -/

/-- The command does not give the type of a leaf to a node with children. -/
def Command.Spares (t : Tree) : Command → Prop
  | .update n => n.id ≠ rootId → n.isLeaf = true → ∀ m, t.find? n.id = some m → m.children = []
  | _ => True

theorem Tree.Leafy.apply_iff {t : Tree} (h : t.Leafy) (ht : t.WellFormed) (d : Defaults)
    (c : Command) : (c.apply d t).2.Leafy ↔ c.Spares t := by
  cases c with
  | add parentId type index text attributes =>
    exact iff_of_true (h.add d parentId type _ text _) trivial
  | duplicate id => exact iff_of_true (h.duplicate ht id) trivial
  | delete id => exact iff_of_true (h.delete id) trivial
  | move source target position => exact iff_of_true (h.move ht source target position) trivial
  | update n => exact h.update_iff n

end PageEditor
