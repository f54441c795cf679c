import PageEditor.Proofs.Tree.Subtrees

/-!
# Moves

When a node can be moved, and what the tree is then. The five positions differ only in the place they
mean. No place is in the subtree that moves unless the target is, so the search for a cycle has nothing
to add to where the target stands, and the place is still there once the node has left its parent.
-/
set_option autoImplicit false

namespace PageEditor

/-! ## Anchors -/

namespace Node

variable {id x : String} {f : Node → Node} {m child : Node}

mutual

theorem find?_modify? (hf : ∀ m, (f m).id = m.id) : (n n' : Node) → n.modify? id f = some n' →
    n.find? id = some m → n'.find? id = some (f m)
  | ⟨own, fields, component, origin, children⟩, n', h, hm => by
    rw [modify?] at h
    rw [find?] at hm
    by_cases hown : own = id
    · rw [if_pos hown] at h hm
      cases h
      cases hm
      have hid := hf ⟨own, fields, component, origin, children⟩
      generalize f ⟨own, fields, component, origin, children⟩ = k at hid
      cases k
      rw [find?, if_pos (hid.trans hown)]
    · rw [if_neg hown] at h hm
      obtain ⟨cs, hcs, rfl⟩ := Option.map_eq_some_iff.1 h
      rw [find?, if_neg hown]
      exact findIn?_modifyIn? hf children cs hcs hm

theorem findIn?_modifyIn? (hf : ∀ m, (f m).id = m.id) : (ns ns' : List Node) →
    modifyIn? id f ns = some ns' → findIn? id ns = some m → findIn? id ns' = some (f m)
  | [], ns', h, _ => by cases h
  | n :: ns, ns', h, hm => by
    rw [modifyIn?] at h
    rw [findIn?] at hm
    cases hn : modify? id f n with
    | some n' =>
      rw [hn] at h
      cases h
      cases hfind : n.find? id with
      | none =>
        rw [(modify?_eq_none_iff id f n).2 hfind] at hn
        cases hn
      | some k =>
        rw [hfind, Option.some_or] at hm
        cases hm
        rw [findIn?, find?_modify? hf n n' hn hfind, Option.some_or]
    | none =>
      rw [hn] at h
      obtain ⟨ms, hms, rfl⟩ := Option.map_eq_some_iff.1 h
      have hnone := (modify?_eq_none_iff id f n).1 hn
      rw [hnone, Option.none_or] at hm
      rw [findIn?, hnone, Option.none_or, findIn?_modifyIn? hf ns ms hms hm]

end

theorem find?_modify (hf : ∀ m, (f m).id = m.id) {n : Node} (h : n.find? id = some m) :
    (n.modify id f).find? id = some (f m) := by
  rw [modify]
  cases hn : n.modify? id f with
  | none =>
    rw [(modify?_eq_none_iff id f n).1 hn] at h
    cases h
  | some n' => exact find?_modify? hf n n' hn h

theorem exists_findIdx? {ns : List Node} (h : x ∈ ns.map (·.id)) :
    ∃ front c back, ns = front ++ c :: back ∧ c.id = x ∧
      ns.findIdx? (·.id == x) = some front.length := by
  induction ns with
  | nil => cases h
  | cons n ns ih =>
    by_cases hn : n.id = x
    · exact ⟨[], n, ns, rfl, hn, by simp [List.findIdx?_cons, hn]⟩
    · have hrest : x ∈ ns.map (·.id) := (List.mem_cons.1 h).resolve_left (Ne.symm hn)
      obtain ⟨front, c, back, rfl, hc, hindex⟩ := ih hrest
      exact ⟨n :: front, c, back, rfl, hc, by simp [List.findIdx?_cons, hn, hindex]⟩

theorem children_insertChild (n : Node) (front back : List Node)
    (h : n.children = front ++ back) :
    (n.insertChild front.length child).children = front ++ child :: back := by
  have hindex : min front.length n.children.length = front.length := by simp [h]
  have hinsert : ∀ front : List Node,
      (front ++ back).insertIdx front.length child = front ++ child :: back := by
    intro front
    induction front with
    | nil => rfl
    | cons n front ih => simp [List.insertIdx_succ_cons, ih]
  rw [insertChild, hindex, h, hinsert]

theorem childIds_insertChild (n : Node) (front back : List Node)
    (h : n.children = front ++ back) :
    (n.insertChild front.length child).childIds =
      front.map (·.id) ++ child.id :: back.map (·.id) := by
  rw [childIds, children_insertChild n front back h, List.map_append, List.map_cons]

theorem childIds_insert_last (n : Node) :
    (n.insertChild (Anchor.last.index n.children) child).childIds = n.childIds ++ [child.id] :=
  childIds_insertChild n n.children [] (by simp)

theorem childIds_insert_before {n : Node} (child : Node) (h : x ∈ n.childIds) :
    ∃ front back, (n.insertChild ((Anchor.before x).index n.children) child).childIds =
      front ++ child.id :: x :: back := by
  obtain ⟨front, c, back, hsplit, rfl, hindex⟩ := exists_findIdx? h
  refine ⟨front.map (·.id), back.map (·.id), ?_⟩
  have hat : (Anchor.before c.id).index n.children = front.length := by simp [Anchor.index, hindex]
  rw [hat, childIds_insertChild n front (c :: back) hsplit, List.map_cons]

theorem childIds_insert_after {n : Node} (child : Node) (h : x ∈ n.childIds) :
    ∃ front back, (n.insertChild ((Anchor.after x).index n.children) child).childIds =
      front ++ x :: child.id :: back := by
  obtain ⟨front, c, back, hsplit, rfl, hindex⟩ := exists_findIdx? h
  refine ⟨front.map (·.id), back.map (·.id), ?_⟩
  have hat : (Anchor.after c.id).index n.children = (front ++ [c]).length := by
    simp [Anchor.index, hindex]
  have hsplit' : n.children = (front ++ [c]) ++ back := by simp [hsplit]
  rw [hat, childIds_insertChild n (front ++ [c]) back hsplit']
  simp

end Node

namespace Tree

variable {t : Tree} {a b q : String} {position : DropPosition} {d : Destination}

/-! ## What a move asks for and what it gives -/

/-- There is a place at the target for this position. -/
def HasPlace (t : Tree) (target : Node) : DropPosition → Prop
  | .before | .after => target.id ≠ rootId
  | .inside => target.isLeaf = false
  | .outside => ∃ p, t.parentId? target.id = some p ∧ p ≠ rootId
  | .root => True

/-- A request to move `a` that is in order but for where `b` may stand. -/
structure Admits (t : Tree) (a b : String) (position : DropPosition) : Prop where
  not_root : a ≠ rootId
  ne : a ≠ b
  mem : a ∈ t.allIds
  place : ∃ n, t.find? b = some n ∧ t.HasPlace n position

/-- Two children of one node, the second right behind the first. -/
def Beside (t : Tree) (x y : String) : Prop :=
  ∃ p ∈ t.root.nodes, ∃ front back, p.childIds = front ++ x :: y :: back

/-- `a` stands where the position at `b` says. -/
def Sits (t : Tree) (a b : String) : DropPosition → Prop
  | .before => t.Beside a b
  | .after => t.Beside b a
  | .inside => ∃ n front, t.find? b = some n ∧ n.childIds = front ++ [a]
  | .outside => ∃ p, t.parentId? b = some p ∧ t.Beside p a
  | .root => ∃ front, t.root.childIds = front ++ [a]

/-- The tree after a move: the subtree has forgotten its places and hangs where it should, and the
rest is as it was. -/
structure Moved (t t' : Tree) (a b : String) (position : DropPosition) (parent : String) : Prop where
  rest : t'.without a = t.without a
  subtree : ∃ n, t.find? a = some n ∧ t'.find? a = some n.forget
  parent : t'.parentId? a = some parent
  sits : t'.Sits a b position

/-! ## Plans -/

theorem Indexed.parentId?_eq_none_iff (h : t.Indexed) {x : String} (hx : x ∈ t.allIds) :
    t.parentId? x = none ↔ x = rootId := by
  constructor
  · intro hnone
    refine (h.mem_ids_iff.1 hx).resolve_right ?_
    rintro ⟨p, hp⟩
    rw [hnone] at hp
    cases hp
  · rintro rfl
    refine Option.eq_none_iff_forall_ne_some.2 fun p hp => ?_
    exact h.ne_root hp rfl

theorem Indexed.hasPlace_iff (h : t.Indexed) {n : Node} (hn : n.id ∈ t.allIds) :
    t.HasPlace n position ↔ ∃ d, t.place? n position = some d := by
  have hparent : n.id ≠ rootId ↔ ∃ p, t.parentId? n.id = some p := by
    rw [ne_eq, ← h.parentId?_eq_none_iff hn, ← ne_eq, Option.ne_none_iff_exists']
  cases position with
  | before => cases hp : t.parentId? n.id <;> simp [HasPlace, place?, hparent, hp]
  | after => cases hp : t.parentId? n.id <;> simp [HasPlace, place?, hparent, hp]
  | inside => cases hleaf : n.isLeaf <;> simp [HasPlace, place?, hleaf]
  | outside =>
    simp only [HasPlace, place?]
    cases hp : t.parentId? n.id with
    | none => simp
    | some p =>
      have habove := h.parentId?_eq_none_iff (h.parent_mem hp)
      cases ha : t.parentId? p with
      | none => simpa [ha] using habove
      | some above => simpa [ha] using habove
  | root => simp [HasPlace, place?]

theorem Indexed.inSubtree_of_place (h : t.Indexed) (ha : a ≠ rootId) {n : Node}
    (hd : t.place? n position = some d) (hsub : t.InSubtree a d.parent) : t.InSubtree a n.id := by
  cases position with
  | before =>
    obtain ⟨p, hp, rfl⟩ := Option.map_eq_some_iff.1 hd
    exact h.inSubtree_of_parent hp hsub
  | after =>
    obtain ⟨p, hp, rfl⟩ := Option.map_eq_some_iff.1 hd
    exact h.inSubtree_of_parent hp hsub
  | inside =>
    cases hleaf : n.isLeaf with
    | true => simp [place?, hleaf] at hd
    | false =>
      simp only [place?, hleaf, Bool.false_eq_true, if_false, Option.some.injEq] at hd
      rwa [← hd] at hsub
  | outside =>
    obtain ⟨p, hp, hd⟩ := Option.bind_eq_some_iff.1 hd
    obtain ⟨above, habove, hd⟩ := Option.bind_eq_some_iff.1 hd
    cases hd
    exact h.inSubtree_of_parent hp (h.inSubtree_of_parent habove hsub)
  | root =>
    cases hd
    exact absurd hsub (h.not_inSubtree_root ha)

/-- Both searches for a cycle come down to the target. -/
theorem Indexed.cycle_iff (h : t.Indexed) (ha : a ≠ rootId) (hmem : a ∈ t.allIds) {n : Node}
    (hne : n.id ≠ a) (hd : t.place? n position = some d) :
    t.isDescendant a n.id = true ∨ t.hierarchy.wouldCycle a d.parent = true ↔ t.InSubtree a n.id := by
  refine ⟨?_, fun hsub => .inl ((h.isDescendant_iff hmem hne).2 hsub)⟩
  rintro (hdesc | hcycle)
  · exact (h.isDescendant_iff hmem hne).1 hdesc
  · refine h.inSubtree_of_place ha hd ?_
    by_cases hparent : d.parent = a
    · obtain ⟨m, hm⟩ := Node.exists_find? hmem
      rw [hparent]
      exact ⟨m, hm, Node.id_of_find? hm ▸ m.id_mem_ids⟩
    · rw [Hierarchy.wouldCycle, beq_false_of_ne (Ne.symm hparent), Bool.false_or] at hcycle
      exact (h.isDescendant_iff hmem hparent).1 hcycle

theorem Indexed.planMove_of_admits (h : t.Indexed) (ha : t.Admits a b position) :
    (t.InSubtree a b → t.planMove a b position = .error .cycle) ∧
      (¬ t.InSubtree a b → ∃ plan, t.planMove a b position = .ok plan) := by
  obtain ⟨hroot, hne, hmem, n, hn, hplace⟩ := ha
  have hid := Node.id_of_find? hn
  obtain ⟨d, hd⟩ := (h.hasPlace_iff (hid ▸ Node.id_mem_of_find? hn)).1 hplace
  obtain ⟨p, hp⟩ := (h.mem_ids_iff.1 hmem).resolve_left hroot
  have hcycle := h.cycle_iff hroot hmem (hid ▸ Ne.symm hne) hd
  rw [hid] at hcycle
  simp only [planMove, if_neg hroot, if_neg hne, hp, hn, hd]
  constructor
  · exact fun hsub => if_pos (hcycle.2 hsub)
  · exact fun hsub => ⟨(p, d), if_neg fun hc => hsub (hcycle.1 hc)⟩

/-- Only requests that are in order are planned or found to make a cycle. -/
theorem Indexed.admits_of_planMove (h : t.Indexed)
    (hplan : t.planMove a b position = .error .cycle ∨ ∃ plan, t.planMove a b position = .ok plan) :
    t.Admits a b position := by
  unfold planMove at hplan
  by_cases hroot : a = rootId
  · simp [hroot] at hplan
  by_cases hne : a = b
  · simp [if_neg hroot, if_pos hne] at hplan
  cases hp : t.parentId? a with
  | none => simp [hroot, hne, hp] at hplan
  | some p =>
    cases hn : t.find? b with
    | none => simp [hroot, hne, hp, hn] at hplan
    | some n =>
      cases hd : t.place? n position with
      | none => simp [hroot, hne, hp, hn, hd] at hplan
      | some d =>
        refine ⟨hroot, hne, h.mem_ids_iff.2 (.inr ⟨p, hp⟩), n, hn, ?_⟩
        exact (h.hasPlace_iff (Node.id_of_find? hn ▸ Node.id_mem_of_find? hn)).2 ⟨d, hd⟩

theorem Indexed.planMove_iff (h : t.Indexed) (a b : String) (position : DropPosition) :
    (t.planMove a b position = .error .cycle ↔ t.Admits a b position ∧ t.InSubtree a b) ∧
      ((∃ plan, t.planMove a b position = .ok plan) ↔
        t.Admits a b position ∧ ¬ t.InSubtree a b) := by
  constructor
  · refine ⟨fun hcycle => ?_, fun hsub => (h.planMove_of_admits hsub.1).1 hsub.2⟩
    have hadmits := h.admits_of_planMove (.inl hcycle)
    refine ⟨hadmits, Classical.byContradiction fun hout => ?_⟩
    obtain ⟨plan, hok⟩ := (h.planMove_of_admits hadmits).2 hout
    cases hcycle.symm.trans hok
  · refine ⟨?_, fun hout => (h.planMove_of_admits hout.1).2 hout.2⟩
    rintro ⟨plan, hok⟩
    have hadmits := h.admits_of_planMove (.inr ⟨plan, hok⟩)
    exact ⟨hadmits, fun hsub => by cases hok.symm.trans ((h.planMove_of_admits hadmits).1 hsub)⟩

/-! ## The tree after a move -/

/-- The tree `left` is `t` while the subtree of `a`, whose topmost node is `n`, hangs nowhere. -/
structure Lifted (t left : Tree) (a : String) (n : Node) : Prop where
  node : t.find? a = some n
  indexed : left.Indexed
  rest : left.root.without a = t.root.without a
  ids : left.ids = t.ids
  nodup : n.ids.Nodup
  apart : ∀ x ∈ n.ids, x ∉ left.root.ids

/-- A planned move takes the subtree off its parent and puts it where it goes. -/
theorem Indexed.exists_lifted (h : t.Indexed) {fromId : String}
    (hplan : t.planMove a b position = .ok (fromId, d)) :
    ∃ n left, t.Lifted left a n ∧ left = t.editNode fromId (·.eraseChild a) ∧
      d.parent ∈ left.root.ids ∧
      t.move a b position = (.ok d.parent, left.editNode d.parent fun p =>
        p.insertChild (d.anchor.index p.children) n.forget) := by
  obtain ⟨n, hn, hperm, hdest, hmove⟩ := h.move_eq hplan
  have hsplit := List.nodup_append.1 (hperm.nodup_iff.2 h.nodup)
  have hrest : (t.editNode fromId (·.eraseChild a)).root.without a = t.root.without a :=
    Node.without_modify (Node.without_eraseChild a) fromId t.root
  have hleft : (t.editNode fromId (·.eraseChild a)).Indexed := h.editNode (fun _ => rfl) hsplit.1
  exact ⟨n, _, ⟨hn, hleft, hrest, rfl, hsplit.2.1, fun x hx hold => hsplit.2.2 x hold x hx rfl⟩,
    rfl, hdest, hmove⟩

theorem Indexed.find?_inserted (h : t.Indexed) {parent : String} (hparent : parent ∈ t.root.ids)
    (child : Node) (hchild : child.ids.Nodup) (hfresh : ∀ x ∈ child.ids, x ∉ t.root.ids)
    (index : Node → Nat) {t' : Tree}
    (ht' : t' = t.editNode parent fun p => p.insertChild (index p) child) :
    t'.Indexed ∧ t'.root.without child.id = t.root.without child.id ∧
      t'.find? child.id = some child ∧ t'.parentId? child.id = some parent ∧
      ∃ p, t.find? parent = some p ∧ t'.find? parent = some (p.insertChild (index p) child) := by
  subst ht'
  have hends := h.insert hparent hchild hfresh index
  obtain ⟨p, hp⟩ := Node.exists_find? hparent
  have hp' := Node.find?_modify (f := fun p => p.insertChild (index p) child) (fun _ => rfl) hp
  have hmem : child ∈ (p.insertChild (index p) child).children :=
    (List.mem_insertIdx (Nat.min_le_right _ _)).2 (.inl rfl)
  obtain ⟨hfind, hparent⟩ := hends.find?_child hp' hmem
  refine ⟨hends, ?_, hfind, hparent, p, hp, hp'⟩
  exact Node.without_modify (fun p => Node.without_insertChild rfl (index p) p) parent t.root

theorem Indexed.mem_childIds (h : t.Indexed) {x parent : String} {p : Node}
    (hx : t.parentId? x = some parent) (hp : t.find? parent = some p) : x ∈ p.childIds := by
  obtain ⟨p', c, hp', _, hc, rfl, _⟩ := h.parent_holds hx
  cases hp.symm.trans hp'
  exact List.mem_map.2 ⟨c, hc, rfl⟩

/-- The place is the one that the position means: what it is next to has not moved. -/
theorem Indexed.sits (h : t.Indexed) (ha : a ≠ rootId) {left t' : Tree} {k n p : Node}
    (hleft : t.Lifted left a n) (hk : k.id ≠ a) (hout : ¬ t.InSubtree a k.id)
    (hd : t.place? k position = some d) (hp : left.find? d.parent = some p)
    (hends : t'.Indexed) (hrest : t'.root.without a = t.root.without a) {child : Node}
    (hchild : child.id = a)
    (hp' : t'.find? d.parent = some (p.insertChild (d.anchor.index p.children) child)) :
    t'.Sits a k.id position := by
  have hmem := Node.mem_nodes_of_find? hp'
  have hstays : ∀ {x q}, t.parentId? x = some q → ¬ t.InSubtree a x → x ≠ a →
      left.parentId? x = some q :=
    fun hq hx hxa => h.parentId?_of_without hleft.indexed hleft.rest ha hx hxa hq
  cases position with
  | before =>
    obtain ⟨q, hq, rfl⟩ := Option.map_eq_some_iff.1 hd
    have hb := hleft.indexed.mem_childIds (hstays hq hout hk) hp
    obtain ⟨front, back, hchildren⟩ := Node.childIds_insert_before child hb
    rw [hchild] at hchildren
    exact ⟨_, hmem, front, back, hchildren⟩
  | after =>
    obtain ⟨q, hq, rfl⟩ := Option.map_eq_some_iff.1 hd
    have hb := hleft.indexed.mem_childIds (hstays hq hout hk) hp
    obtain ⟨front, back, hchildren⟩ := Node.childIds_insert_after child hb
    rw [hchild] at hchildren
    exact ⟨_, hmem, front, back, hchildren⟩
  | inside =>
    cases hleaf : k.isLeaf with
    | true => simp [place?, hleaf] at hd
    | false =>
      simp only [place?, hleaf, Bool.false_eq_true, if_false, Option.some.injEq] at hd
      subst hd
      refine ⟨_, p.childIds, hp', ?_⟩
      rw [Node.childIds_insert_last, hchild]
  | outside =>
    obtain ⟨q, hq, hd⟩ := Option.bind_eq_some_iff.1 hd
    obtain ⟨above, habove, hd⟩ := Option.bind_eq_some_iff.1 hd
    cases hd
    have hqa : ¬ t.InSubtree a q := fun hsub => hout (h.inSubtree_of_parent hq hsub)
    have hqne : q ≠ a := by
      rintro rfl
      exact hqa ⟨n, hleft.node, Node.id_of_find? hleft.node ▸ n.id_mem_ids⟩
    have hb := hleft.indexed.mem_childIds (hstays habove hqa hqne) hp
    obtain ⟨front, back, hchildren⟩ := Node.childIds_insert_after child hb
    rw [hchild] at hchildren
    exact ⟨q, h.parentId?_of_without hends hrest ha hout hk hq, _, hmem, front, back, hchildren⟩
  | root =>
    cases hd
    have hroot : t'.find? rootId = some t'.root := by
      rw [← hends.root_id]
      exact Node.find?_of_mem hends.nodup t'.root.mem_nodes_self
    refine ⟨p.childIds, ?_⟩
    rw [← Option.some.inj (hp'.symm.trans hroot), Node.childIds_insert_last, hchild]

theorem Indexed.moved_of_plan (h : t.Indexed) {fromId : String}
    (hplan : t.planMove a b position = .ok (fromId, d)) :
    t.Moved (t.move a b position).2 a b position d.parent := by
  obtain ⟨hadmits, hout⟩ := (h.planMove_iff a b position).2.1 ⟨_, hplan⟩
  obtain ⟨k, hk, hd⟩ := (planMove_eq_ok hplan).2.1
  obtain ⟨n, left, hleft, -, hdest, hmove⟩ := h.exists_lifted hplan
  have hnid : n.forget.id = a := by
    rw [← Node.id_of_find? hleft.node]
    cases n
    rw [Node.forget]
  obtain ⟨hends, hwhole, hfind, hparent, p, hp, hp'⟩ :=
    hleft.indexed.find?_inserted hdest n.forget
      (by rw [Node.ids_forget]; exact hleft.nodup)
      (fun x hx => hleft.apart x (by rwa [Node.ids_forget] at hx))
      (fun p => d.anchor.index p.children) rfl
  rw [hnid] at hwhole hfind hparent
  have hrest := hwhole.trans hleft.rest
  have hids : (left.editNode d.parent fun p =>
      p.insertChild (d.anchor.index p.children) n.forget).ids = t.ids := hleft.ids
  obtain rfl := Node.id_of_find? hk
  rw [hmove]
  refine ⟨?_, ⟨n, hleft.node, hfind⟩, hparent, ?_⟩
  · simp only [without, edit, reindex, hrest, hids]
  · exact h.sits hadmits.not_root hleft (Ne.symm hadmits.ne) hout hd hp hends hrest hnid hp'

/-- A move succeeds exactly if the request is in order and the target is not in the subtree that
moves; it makes a cycle exactly if the request is in order and the target is in it. After a move that
succeeds the subtree, and nothing else, is in another place. -/
theorem Indexed.move_spec (h : t.Indexed) (a b : String) (position : DropPosition) :
    ((∃ q, (t.move a b position).1 = .ok q) ↔ t.Admits a b position ∧ ¬ t.InSubtree a b) ∧
      ((t.move a b position).1 = .error .cycle ↔ t.Admits a b position ∧ t.InSubtree a b) ∧
      ∀ q, (t.move a b position).1 = .ok q → t.Moved (t.move a b position).2 a b position q := by
  obtain ⟨hcycle, hplanned⟩ := h.planMove_iff a b position
  rw [← hcycle, ← hplanned]
  cases hplan : t.planMove a b position with
  | error e =>
    have hmove : (t.move a b position).1 = .error e := by rw [move, hplan]
    rw [hmove]
    refine ⟨?_, ?_, fun q hq => by cases hq⟩
    · constructor <;> rintro ⟨_, hok⟩ <;> cases hok
    · constructor <;> intro he <;> cases he <;> rfl
  | ok plan =>
    obtain ⟨fromId, d⟩ := plan
    obtain ⟨_, _, _, _, hmove⟩ := h.move_eq hplan
    have hok : (t.move a b position).1 = .ok d.parent := by rw [hmove]
    rw [hok]
    refine ⟨⟨fun _ => ⟨_, rfl⟩, fun _ => ⟨_, rfl⟩⟩, ?_, ?_⟩
    · constructor <;> intro he <;> cases he
    · intro q hq
      cases hq
      exact h.moved_of_plan hplan

/-- A list of two items. -/
def twoItems : Tree :=
  around
    { Node.root with children :=
      [{ Node.ofType "list" "ul" with children := [.ofType "one" "li", .ofType "two" "li"] }] }
    ⟨"item", 0⟩

theorem moved_twoItems :
    (∃ q, (twoItems.move "two" "one" .before).1 = .ok q ∧
      twoItems.Moved (twoItems.move "two" "one" .before).2 "two" "one" .before q) ∧
      (twoItems.move "list" "one" .inside).1 = .error .cycle := by
  have h : twoItems.Indexed := ⟨rfl, by decide, rfl⟩
  have hone : twoItems.find? "one" = some (.ofType "one" "li") := rfl
  constructor
  · obtain ⟨hok, -, hmoved⟩ := h.move_spec "two" "one" .before
    have hplace : twoItems.HasPlace (.ofType "one" "li") .before := by
      show "one" ≠ rootId
      decide
    have hout : ¬ twoItems.InSubtree "two" "one" := by
      rintro ⟨n, hn, hmem⟩
      cases (rfl : twoItems.find? "two" = some (.ofType "two" "li")).symm.trans hn
      revert hmem
      decide
    obtain ⟨q, hq⟩ := hok.2 ⟨⟨by decide, by decide, by decide, _, hone, hplace⟩, hout⟩
    exact ⟨q, hq, hmoved q hq⟩
  · have hplace : twoItems.HasPlace (.ofType "one" "li") .inside := by
      show Node.isLeaf _ = false
      decide
    have hsub : twoItems.InSubtree "list" "one" := ⟨_, rfl, by decide⟩
    exact (h.move_spec "list" "one" .inside).2.1.2
      ⟨⟨by decide, by decide, by decide, _, hone, hplace⟩, hsub⟩

end Tree

end PageEditor
