import PageEditor.Proofs.Tree.WellFormed

/-!
# Edits of well-formed trees

Adding, duplicating, deleting, moving and updating keep a tree well-formed, and give it back as it
was when they are turned down. A planned move can always be carried out: the place it goes to is
not below the node that moves, so it is still there once the node has left.
-/
set_option autoImplicit false

namespace PageEditor

open IdSource (Drawn)

namespace Tree

variable {t : Tree} {id parent : String}

/-! ## Inserting and removing -/

theorem Indexed.insert (h : t.Indexed) (hparent : parent ∈ t.root.ids) {child : Node}
    (hchild : child.ids.Nodup) (hfresh : ∀ x ∈ child.ids, x ∉ t.root.ids) (index : Node → Nat) :
    (t.editNode parent fun p => p.insertChild (index p) child).Indexed := by
  obtain ⟨p, hp⟩ := Node.exists_find? hparent
  have hinsert : ((p.insertChild (index p) child).ids ++ []).Perm (p.ids ++ child.ids) := by
    rw [List.append_nil]
    exact p.insertChild_ids_perm (index p) child
  have hperm := Node.modify_ids_perm parent (fun p => p.insertChild (index p) child) _ _ hp hinsert
  rw [List.append_nil] at hperm
  refine h.editNode (fun _ => rfl) ?_
  refine hperm.nodup_iff.2 (List.nodup_append.2 ⟨h.nodup, hchild, ?_⟩)
  intro x hx y hy hxy
  exact hfresh y hy (hxy ▸ hx)

theorem wellFormed_insert (h : t.WellFormed) (hparent : parent ∈ t.root.ids) {child : Node}
    (hchild : child.ids.Nodup) (hfresh : ∀ x ∈ child.ids, x ∉ t.root.ids) (index : Node → Nat) :
    (t.editNode parent fun p => p.insertChild (index p) child).WellFormed :=
  wellFormed_editNode h (keepsHead_insertChild index child)
    (h.indexed.insert hparent hchild hfresh index).nodup

theorem editNode_ids_perm {p : Node} {f : Node → Node} {gone : List String}
    (hp : t.find? parent = some p) (hf : ((f p).ids ++ gone).Perm p.ids) :
    ((t.editNode parent f).root.ids ++ gone).Perm t.root.ids := by
  have hperm := Node.modify_ids_perm parent f gone [] hp (by rw [List.append_nil]; exact hf)
  rwa [List.append_nil] at hperm

theorem wellFormed_remove (h : t.WellFormed) {f : Node → Node} (hf : KeepsHead f)
    {gone : List String} (hperm : ((t.editNode parent f).root.ids ++ gone).Perm t.root.ids) :
    (t.editNode parent f).WellFormed :=
  wellFormed_editNode h hf (List.nodup_append.1 (hperm.nodup_iff.2 h.nodup)).1

/-! ## The five edits -/

theorem wellFormed_add (h : t.WellFormed) (d : Defaults) (parentId type : String)
    (index : Option Nat) (text : Option String) (attributes : List (String × String)) :
    (t.add d parentId type index text attributes).2.WellFormed := by
  unfold add
  cases hfind : t.find? parentId with
  | none => exact h
  | some p =>
    simp only
    split
    · exact h
    · have hmem := Node.id_mem_of_find? hfind
      have hnew := IdSource.fresh_notMem t.ids t.takenIds
      refine wellFormed_insert (t := t.freshId.2) (h.withIds _) hmem ?_ ?_
        fun p => index.getD p.children.length
      · exact List.nodup_cons.2 ⟨List.not_mem_nil, List.nodup_nil⟩
      · intro x hx
        rcases List.mem_cons.1 hx with rfl | hx
        · exact fun hold => hnew (h.indexed.mem_takenIds_iff.2 hold)
        · cases hx

theorem wellFormed_duplicate (h : t.WellFormed) (id : String) : (t.duplicate id).2.WellFormed := by
  unfold duplicate
  cases hfind : t.find? id with
  | none => exact h
  | some n =>
    simp only
    split
    · -- The copies of all top-level nodes go behind the last one.
      have hdrawn := Node.drawn_copyAll t.takenIds t.ids n.children
      have hnew := Node.copyAll_notMem t.takenIds t.ids n.children
      generalize Node.copyAll t.takenIds t.ids n.children = made at hdrawn hnew
      obtain ⟨copies, ids⟩ := made
      have hids : ({ t.root with children := t.root.children ++ copies } : Node).ids
          = t.root.ids ++ Node.idsAll copies := by
        rw [Node.ids_eq, Node.ids_eq t.root, Node.idsAll_eq_flatMap, List.flatMap_append,
          ← Node.idsAll_eq_flatMap, ← Node.idsAll_eq_flatMap, List.cons_append]
      refine wellFormed_around ids h.root_id h.root_type ?_
      rw [hids]
      refine List.nodup_append.2 ⟨h.nodup, hdrawn.nodup, ?_⟩
      intro x hx y hy hxy
      exact hnew y hy (h.indexed.mem_takenIds_iff.2 (hxy ▸ hx))
    · cases hparent : t.parentId? id with
      | none => exact h
      | some parentId =>
        have hdrawn := Node.drawn_copy t.takenIds t.ids n
        have hnew := Node.copy_notMem t.takenIds t.ids n
        generalize Node.copy t.takenIds t.ids n = made at hdrawn hnew
        obtain ⟨c, ids⟩ := made
        refine wellFormed_insert (h.withIds ids) (h.indexed.parent_mem hparent) hdrawn.nodup ?_ fun _ => _
        exact fun x hx hold => hnew x hx (h.indexed.mem_takenIds_iff.2 hold)

theorem wellFormed_delete (h : t.WellFormed) (id : String) : (t.delete id).2.WellFormed := by
  unfold delete
  by_cases hroot : id = rootId
  · rw [if_pos hroot]
    exact h
  · rw [if_neg hroot]
    cases hparent : t.parentId? id with
    | none => exact h
    | some parentId =>
      obtain ⟨p, _, hp, _⟩ := h.indexed.parent_holds hparent
      exact wellFormed_remove h (fun _ => ⟨rfl, rfl⟩)
        (editNode_ids_perm hp (p.dropChildren_ids_perm id))

theorem wellFormed_modify (h : t.WellFormed) (id : String) {f : Node → Node}
    (hf : Node.KeepsShape f) (htype : t.root.id = id → (f t.root).type = t.root.type) : (t.modify id f).WellFormed := by
  obtain ⟨hid, hids, hedges⟩ := hf.modify t.root
  refine ⟨hid.trans h.root_id, ?_, ?_, ?_⟩
  · exact (Node.modify_type id f t.root htype).trans h.root_type
  · show (t.root.modify id f).ids.Nodup
    rw [hids]
    exact h.nodup
  · show t.parents = (t.root.modify id f).edges
    rw [hedges]
    exact h.parents_eq

theorem wellFormed_update (h : t.WellFormed) (n : Node) : (t.update n).2.WellFormed := by
  unfold update
  by_cases hroot : n.id = rootId
  · rw [if_pos hroot]
    exact h
  · rw [if_neg hroot]
    cases t.find? n.id with
    | none => exact h
    | some _ =>
      refine wellFormed_modify h n.id (fun _ => ⟨rfl, rfl⟩) ?_
      intro hid
      exact absurd (hid.symm.trans h.root_id) hroot

/-! ## Moving -/

theorem Indexed.ids_below (h : t.Indexed) {n : Node} (hn : n ∈ t.root.nodes) :
    ∀ x ∈ n.ids, x = n.id ∨ x ∈ t.hierarchy.descendants n.id := by
  refine Node.forall_ids_of_closed n ?_ (.inl rfl)
  intro m hm hid c hc
  refine Hierarchy.descendants_closed t.hierarchy n.id m.id hid c.id ?_
  have hfind : t.find? m.id = some m :=
    Node.find?_of_mem h.nodup (Node.nodes_subset t.root n hn m hm)
  show c.id ∈ t.children m.id
  rw [children, hfind]
  exact List.mem_map.2 ⟨c, hc, rfl⟩

theorem planMove_eq_ok {source target fromId : String} {position : DropPosition} {d : Destination}
    (h : t.planMove source target position = .ok (fromId, d)) :
    t.parentId? source = some fromId ∧
      (∃ n, t.find? target = some n ∧ t.place? n position = some d) ∧
      t.hierarchy.wouldCycle source d.parent = false := by
  unfold planMove at h
  split at h
  · cases h
  split at h
  · cases h
  split at h
  · cases h
  · cases h
  · rename_i from? n hfrom hfind
    split at h
    · cases h
    · rename_i d' hplace
      split at h
      · cases h
      · rename_i hcycle
        cases h
        refine ⟨hfrom, ⟨n, hfind, hplace⟩, ?_⟩
        exact Bool.eq_false_iff.2 fun hc => hcycle (.inr hc)

theorem Indexed.place_mem (h : t.Indexed) {target : Node} (htarget : target.id ∈ t.root.ids)
    {position : DropPosition} {d : Destination} (hd : t.place? target position = some d) :
    d.parent ∈ t.root.ids := by
  cases position with
  | before =>
    obtain ⟨p, hp, rfl⟩ := Option.map_eq_some_iff.1 hd
    exact h.parent_mem hp
  | after =>
    obtain ⟨p, hp, rfl⟩ := Option.map_eq_some_iff.1 hd
    exact h.parent_mem hp
  | inside =>
    simp only [place?] at hd
    split at hd
    · cases hd
    · cases hd
      exact htarget
  | outside =>
    obtain ⟨p, _, hd⟩ := Option.bind_eq_some_iff.1 hd
    obtain ⟨above, habove, hd⟩ := Option.bind_eq_some_iff.1 hd
    cases hd
    exact h.parent_mem habove
  | root =>
    cases hd
    exact h.root_mem

/-- How a planned move is carried out: the node leaves its parent, and goes without its memory to
the place, which is still there. -/
theorem Indexed.move_eq (h : t.Indexed) {source target fromId : String}
    {position : DropPosition} {d : Destination}
    (hplan : t.planMove source target position = .ok (fromId, d)) :
    ∃ n, t.find? source = some n ∧
      ((t.editNode fromId (·.eraseChild source)).root.ids ++ n.ids).Perm t.root.ids ∧
      d.parent ∈ (t.editNode fromId (·.eraseChild source)).root.ids ∧
      t.move source target position =
        (.ok d.parent, (t.editNode fromId (·.eraseChild source)).editNode d.parent fun p =>
          p.insertChild (d.anchor.index p.children) n.forget) := by
  obtain ⟨hfrom, ⟨k, hk, hplace⟩, hcycle⟩ := planMove_eq_ok hplan
  obtain ⟨p, c, hp, hc, hmem, hcid, _⟩ := h.parent_holds hfrom
  have hfind : p.children.find? (·.id == source) = some c := by
    have hsome : (p.children.find? (·.id == source)).isSome :=
      List.find?_isSome.2 ⟨c, hmem, by simpa using hcid⟩
    obtain ⟨n, hn⟩ := Option.isSome_iff_exists.1 hsome
    have hnid : n.id = source := by simpa using List.find?_some hn
    have hnodes : n ∈ t.root.nodes :=
      Node.nodes_subset t.root p (Node.mem_nodes_of_find? hp) n
        (Node.mem_nodes_of_child (List.mem_of_find?_eq_some hn))
    have hsame : t.find? n.id = some n := Node.find?_of_mem h.nodup hnodes
    rw [hnid, hc] at hsame
    rw [hn, Option.some.inj hsame]
  have hperm := editNode_ids_perm hp (Node.eraseChild_ids_perm hfind)
  have hdest : d.parent ∈ (t.editNode fromId (·.eraseChild source)).root.ids := by
    have htarget : k.id ∈ t.root.ids := by
      rw [Node.id_of_find? hk]
      exact Node.id_mem_of_find? hk
    have hall := (hperm.mem_iff).2 (h.place_mem htarget hplace)
    refine (List.mem_append.1 hall).resolve_right ?_
    intro hbelow
    rw [Hierarchy.wouldCycle, Bool.or_eq_false_iff, beq_eq_false_iff_ne] at hcycle
    have hsub := h.ids_below (Node.mem_nodes_of_find? hc) d.parent hbelow
    rw [Node.id_of_find? hc] at hsub
    rcases hsub with hsub | hsub
    · exact hcycle.1 hsub.symm
    · have hno := hcycle.2
      rw [Hierarchy.isDescendant, List.contains_eq_mem, decide_eq_false_iff_not] at hno
      exact hno hsub
  obtain ⟨q, hq⟩ := Node.exists_find? hdest
  refine ⟨c, hc, hperm, hdest, ?_⟩
  have hq' : (t.editNode fromId (·.eraseChild source)).find? d.parent = some q := hq
  simp only [move, hplan, hp, hfind, hq']

theorem wellFormed_move (h : t.WellFormed) (source target : String) (position : DropPosition) :
    (t.move source target position).2.WellFormed := by
  cases hplan : t.planMove source target position with
  | error e =>
    rw [move, hplan]
    exact h
  | ok plan =>
    obtain ⟨fromId, d⟩ := plan
    obtain ⟨n, _, hperm, hdest, hmove⟩ := h.indexed.move_eq hplan
    have hhead : KeepsHead (·.eraseChild source) := fun _ => ⟨rfl, rfl⟩
    have hwithout := wellFormed_remove h hhead hperm
    have hnodup := List.nodup_append.1 (hperm.nodup_iff.2 h.nodup)
    rw [hmove]
    refine wellFormed_insert hwithout hdest ?_ ?_ fun p => d.anchor.index p.children
    · rw [Node.ids_forget]
      exact hnodup.2.1
    · intro x hx hold
      rw [Node.ids_forget] at hx
      exact hnodup.2.2 x hold x hx rfl

/-! ## Commands -/

theorem wellFormed_apply (h : t.WellFormed) (d : Defaults) (c : Command) :
    (c.apply d t).2.WellFormed := by
  cases c with
  | add parentId type index text attributes => exact wellFormed_add h d parentId type _ text _
  | duplicate id => exact wellFormed_duplicate h id
  | delete id => exact wellFormed_delete h id
  | move source target position => exact wellFormed_move h source target position
  | update n => exact wellFormed_update h n

theorem add_of_error {d : Defaults} {parentId type : String} {index : Option Nat}
    {text : Option String} {attributes : List (String × String)} {e : EditError}
    (he : (t.add d parentId type index text attributes).1 = .error e) :
    (t.add d parentId type index text attributes).2 = t := by
  simp only [add] at he ⊢
  split
  · rfl
  · split
    · rfl
    · simp_all

theorem duplicate_of_error {id : String} {e : EditError} (he : (t.duplicate id).1 = .error e) :
    (t.duplicate id).2 = t := by
  simp only [duplicate] at he ⊢
  split
  · rfl
  · split
    · simp_all
    · split
      · rfl
      · simp_all

theorem delete_of_error {id : String} {e : EditError} (he : (t.delete id).1 = .error e) :
    (t.delete id).2 = t := by
  by_cases hroot : id = rootId
  · simp only [delete, if_pos hroot]
  · cases hparent : t.parentId? id with
    | none => simp only [delete, if_neg hroot, hparent]
    | some p =>
      simp only [delete, if_neg hroot, hparent] at he
      cases he

theorem move_of_error (h : t.Indexed) {source target : String} {position : DropPosition}
    {e : EditError} (he : (t.move source target position).1 = .error e) :
    (t.move source target position).2 = t := by
  cases hplan : t.planMove source target position with
  | error e => rw [move, hplan]
  | ok plan =>
    obtain ⟨fromId, d⟩ := plan
    obtain ⟨n, _, _, _, hmove⟩ := h.move_eq hplan
    rw [hmove] at he
    cases he

theorem update_of_error {n : Node} {e : EditError} (he : (t.update n).1 = .error e) :
    (t.update n).2 = t := by
  by_cases hroot : n.id = rootId
  · simp only [update, if_pos hroot]
  · cases hfind : t.find? n.id with
    | none => simp only [update, if_neg hroot, hfind]
    | some m =>
      simp only [update, if_neg hroot, hfind] at he
      cases he

theorem apply_of_error (h : t.Indexed) {d : Defaults} {c : Command} {e : EditError}
    (he : (c.apply d t).1 = .error e) : (c.apply d t).2 = t := by
  have hmap : ∀ {α β : Type} {r : Except EditError α} {f : α → β}, r.map f = .error e →
      r = .error e := by
    intro α β r f hr
    cases r with
    | error e' =>
      cases hr
      rfl
    | ok a => cases hr
  cases c with
  | add parentId type index text attributes => exact add_of_error (hmap he)
  | duplicate id => exact duplicate_of_error (hmap he)
  | delete id => exact delete_of_error (hmap he)
  | move source target position => exact move_of_error h (hmap he)
  | update n => exact update_of_error (hmap he)

end Tree

/-! ## Pages -/

theorem Page.wellFormed_ofParts (source : List Char) (imports : List Import) (top : List Markup)
    (ids : IdSource) : (Page.ofParts source imports top ids).tree.WellFormed := by
  have hdrawn := Node.drawn_allOfMarkup imports ids top
  rw [Page.ofParts]
  generalize Node.allOfMarkup imports ids top = made at hdrawn
  obtain ⟨nodes, ids'⟩ := made
  refine Tree.wellFormed_around ids' rfl rfl ?_
  rw [Node.ids_withPlace, Node.ids_eq]
  refine List.nodup_cons.2 ⟨?_, hdrawn.nodup⟩
  intro hroot
  obtain ⟨k, _, _, hk⟩ := hdrawn.made _ hroot
  exact IdSource.id_ne_rootId _ _ hk.symm

end PageEditor
