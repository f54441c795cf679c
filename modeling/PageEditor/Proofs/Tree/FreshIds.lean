import PageEditor.Edit.Command
import PageEditor.Proofs.Tree.Ids

/-!
# Fresh ids

Drawing goes on until an id comes up that no node of the tree has. Since ids of different counts are
different, it draws once more than there are nodes at most, and what it returns is the first free id
behind the count. Later draws return later counts, so no id is given out twice, by hand or by a command,
whatever happens to the nodes in between.
-/
set_option autoImplicit false

namespace PageEditor

namespace IdSource

/-! ## The loop -/

/-- The ids of a source come up one by one, until the `draws`-th one is not taken. -/
inductive Draws (taken : String → Prop) : IdSource → Nat → String → IdSource → Prop
  | free {g : IdSource} (hfree : ¬ taken g.next.1) : Draws taken g 1 g.next.1 g.next.2
  | again {g g' : IdSource} {draws : Nat} {x : String} (htaken : taken g.next.1)
      (hmore : Draws taken g.next.2 draws x g') : Draws taken g (draws + 1) x g'

variable {g g' : IdSource} {draws : Nat} {x : String} {taken taken' : String → Prop}

theorem Draws.congr (h : Draws taken g draws x g')
    (hsame : ∀ k, g.count < k → (taken (id g.seed k) ↔ taken' (id g.seed k))) :
    Draws taken' g draws x g' := by
  induction h with
  | @free g hfree =>
    exact .free fun htaken => hfree ((hsame (g.count + 1) (Nat.lt_succ_self _)).2 htaken)
  | @again g g' draws x htaken _ ih =>
    refine .again ((hsame (g.count + 1) (Nat.lt_succ_self _)).1 htaken) (ih fun k hk => ?_)
    exact hsame k (Nat.lt_of_succ_lt hk)

/-- The id that is returned is the first one that is free, and all draws are counted. -/
structure FirstFree (taken : String → Prop) (g : IdSource) (draws : Nat) (x : String)
    (g' : IdSource) : Prop where
  pos : 0 < draws
  eq_id : x = id g.seed (g.count + draws)
  source : g' = ⟨g.seed, g.count + draws⟩
  free : ¬ taken x
  before : ∀ k, 0 < k → k < draws → taken (id g.seed (g.count + k))

theorem Draws.firstFree (h : Draws taken g draws x g') : FirstFree taken g draws x g' := by
  induction h with
  | free hfree => exact ⟨Nat.one_pos, rfl, rfl, hfree, fun k hk hlt => by omega⟩
  | @again g g' draws x htaken _ ih =>
    have hcount : g.next.2.count + draws = g.count + (draws + 1) := by
      simp only [next]
      omega
    refine ⟨Nat.succ_pos _, ?_, ?_, ih.free, fun k hk hlt => ?_⟩
    · rw [ih.eq_id, hcount]
      rfl
    · rw [ih.source, hcount]
      rfl
    · -- The first id is the one that was drawn here, the others came up later.
      obtain rfl | hk := Nat.eq_or_lt_of_le (Nat.succ_le_of_lt hk)
      · exact htaken
      · have hlater := ih.before (k - 1) (by omega) (by omega)
        have hindex : g.next.2.count + (k - 1) = g.count + k := by
          simp only [next]
          omega
        rwa [hindex] at hlater

/-- Every id that is taken is passed once at most. -/
theorem draws_fresh (g : IdSource) (taken : List String) :
    ∃ draws, draws ≤ taken.length + 1 ∧
      Draws (· ∈ taken) g draws (g.fresh taken).1 (g.fresh taken).2 := by
  fun_induction fresh g taken with
  | case1 g taken hmem ih =>
    obtain ⟨draws, hle, hdraws⟩ := ih
    have hlength := List.length_erase_of_mem hmem
    have hpos := List.length_pos_of_mem hmem
    refine ⟨draws + 1, by omega, .again hmem (hdraws.congr fun k hk => ?_)⟩
    refine List.mem_erase_of_ne fun hsame => ?_
    have hcount : k = g.count + 1 := id_injective hsame
    simp only [next] at hk
    omega
  | case2 g taken hnot => exact ⟨1, by omega, .free hnot⟩

end IdSource

open IdSource (Drawn)

namespace Node

/-! ## Ids of nodes -/

mutual

theorem length_ids_eq_size : (n : Node) → n.ids.length = n.size
  | ⟨_, _, _, _, children⟩ => by
    rw [ids, size, List.length_cons, length_idsAll_eq_sizeAll children, Nat.add_comm]

theorem length_idsAll_eq_sizeAll : (ns : List Node) → (idsAll ns).length = sizeAll ns
  | [] => rfl
  | n :: ns => by
    rw [idsAll, sizeAll, List.length_append, length_ids_eq_size n, length_idsAll_eq_sizeAll ns]

end

theorem childIds_sublist_idsAll (ns : List Node) : (ns.map (·.id)).Sublist (idsAll ns) := by
  induction ns with
  | nil => exact .slnil
  | cons n ns ih =>
    rw [List.map_cons, idsAll, ids_eq]
    exact (ih.trans (List.sublist_append_right _ _)).cons_cons _

end Node

/-! ## Commands -/

/-- The ids that an edit has given to nodes; of a copy only the id of its top node. -/
def EditResult.newIds : EditResult → List String
  | added id => [id]
  | duplicated ids => ids
  | _ => []

/-- The ids that a command gives out, none if it is turned down. -/
def Command.newIds (c : Command) (d : Defaults) (t : Tree) : List String :=
  match (c.apply d t).1 with
  | .ok r => r.newIds
  | .error _ => []

namespace Tree

variable {t : Tree}

theorem ids_move (t : Tree) (source target : String) (position : DropPosition) :
    (t.move source target position).2.ids = t.ids := by
  unfold move
  cases t.planMove source target position with
  | error e => rfl
  | ok plan =>
    obtain ⟨fromId, d⟩ := plan
    dsimp only
    cases t.find? fromId with
    | none => rfl
    | some p =>
      dsimp only
      cases p.children.find? (·.id == source) with
      | none => rfl
      | some n =>
        dsimp only
        cases (t.editNode fromId (·.eraseChild source)).find? d.parent <;> rfl

theorem drawn_add (d : Defaults) (t : Tree) (parentId type : String) (index : Option UInt64)
    (text : Option String) (attributes : Option (OrderedMap String)) :
    Drawn t.ids ((Command.add parentId type index text attributes).apply d t).2.ids
      ((Command.add parentId type index text attributes).newIds d t) := by
  simp only [Command.newIds, Command.apply, add]
  cases t.find? parentId with
  | none => exact .nil t.ids
  | some p =>
    by_cases hleaf : p.isLeaf = true
    · simp only [hleaf, if_true]
      exact .nil t.ids
    · simp only [hleaf]
      exact IdSource.drawn_fresh t.ids t.takenIds

theorem drawn_duplicate (d : Defaults) (t : Tree) (id : String) :
    Drawn t.ids ((Command.duplicate id).apply d t).2.ids ((Command.duplicate id).newIds d t) := by
  simp only [Command.newIds, Command.apply, duplicate]
  cases t.find? id with
  | none => exact .nil t.ids
  | some n =>
    by_cases hroot : n.isRoot = true
    · simp only [hroot, if_true]
      exact (Node.drawn_copyAll t.takenIds t.ids n.children).sublist
        (Node.childIds_sublist_idsAll _)
    · simp only [hroot]
      cases t.parentId? id with
      | none => exact .nil t.ids
      | some parentId =>
        refine (Node.drawn_copy t.takenIds t.ids n).sublist ?_
        exact List.singleton_sublist.2 (Node.id_mem_ids _)

/-- The id of a new node and those of the copies are drawn from the tree's source; the other commands
leave the source alone. -/
theorem drawn_apply (d : Defaults) (t : Tree) (c : Command) :
    Drawn t.ids (c.apply d t).2.ids (c.newIds d t) := by
  cases c with
  | add parentId type index text attributes => exact drawn_add d t parentId type index text attributes
  | duplicate id => exact drawn_duplicate d t id
  | delete id =>
    simp only [Command.newIds, Command.apply, delete]
    by_cases hid : id = rootId
    · rw [if_pos hid]
      exact .nil t.ids
    · rw [if_neg hid]
      cases t.parentId? id <;> exact .nil t.ids
  | move source target position =>
    have hnone : (Command.move source target position).newIds d t = [] := by
      rw [Command.newIds, Command.apply]
      generalize t.move source target position = made
      obtain ⟨r, t'⟩ := made
      cases r <;> rfl
    have hids : ((Command.move source target position).apply d t).2.ids = t.ids :=
      t.ids_move source target position
    rw [hnone, hids]
    exact .nil t.ids
  | update n =>
    simp only [Command.newIds, Command.apply, update]
    by_cases hid : n.id = rootId
    · rw [if_pos hid]
      exact .nil t.ids
    · rw [if_neg hid]
      cases t.find? n.id <;> exact .nil t.ids

/-! ## Work on a tree -/

/-- What can be done to a tree: an id is drawn, a command is carried out, the nodes are changed in any
way and the index is made anew, or a node is changed in its place. -/
inductive Work
  | draw
  | command (d : Defaults) (c : Command)
  | edit (f : Node → Node)
  | modify (id : String) (f : Node → Node)

/-- The ids that are given out, and the tree behind. -/
def work (t : Tree) : Work → List String × Tree
  | .draw => ([t.freshId.1], t.freshId.2)
  | .command d c => (c.newIds d t, (c.apply d t).2)
  | .edit f => ([], t.edit f)
  | .modify id f => ([], t.modify id f)

def workThrough (t : Tree) : List Work → List String × Tree
  | [] => ([], t)
  | w :: more => ((t.work w).1 ++ ((t.work w).2.workThrough more).1, ((t.work w).2.workThrough more).2)

theorem drawn_work (t : Tree) (w : Work) : Drawn t.ids (t.work w).2.ids (t.work w).1 := by
  cases w with
  | draw => exact IdSource.drawn_fresh t.ids t.takenIds
  | command d c => exact drawn_apply d t c
  | edit f => exact .nil t.ids
  | modify id f => exact .nil t.ids

theorem drawn_workThrough (works : List Work) : ∀ t : Tree,
    Drawn t.ids (t.workThrough works).2.ids (t.workThrough works).1 := by
  induction works with
  | nil => exact fun t => .nil t.ids
  | cons w works ih => exact fun t => (drawn_work t w).append (ih (t.work w).2)

/-! ## Fresh ids of a tree -/

/-- Drawing from the source of a tree ends after one draw more than there are nodes at most. It returns
the first id behind the count that no node has. Ids that are given out one after the other, whatever is
done to the tree in between, are all different. -/
theorem freshId_spec (t : Tree) (hroot : t.root.id = rootId) (hindex : t.parents = t.root.edges) :
    (∃ draws, draws ≤ t.size + 1 ∧
      t.ids.Draws (· ∈ t.allIds) draws t.freshId.1 t.freshId.2.ids ∧
      t.ids.FirstFree (· ∈ t.allIds) draws t.freshId.1 t.freshId.2.ids ∧
      t.freshId.2 = { t with ids := t.freshId.2.ids }) ∧
    ∀ works, (t.workThrough works).1.Nodup := by
  have hperm := takenIds_perm hroot hindex
  have hlength : t.takenIds.length = t.size := by
    rw [hperm.length_eq]
    exact t.root.length_ids_eq_size
  obtain ⟨draws, hle, hdraws⟩ := IdSource.draws_fresh t.ids t.takenIds
  have htree : t.ids.Draws (· ∈ t.allIds) draws t.freshId.1 t.freshId.2.ids :=
    hdraws.congr fun _ _ => hperm.mem_iff
  rw [hlength] at hle
  exact ⟨⟨draws, hle, htree, htree.firstFree, rfl⟩, fun works => (drawn_workThrough works t).nodup⟩

/-- Two nodes have ids that the source will come to, and a third one an id that only looks like one. -/
def numberedItems : Tree :=
  around
    { Node.root with children :=
      [{ Node.ofType "item-2" "ul" with children := [.ofType "item-1" "li", .ofType "item-03" "li"] }] }
    ⟨"item", 0⟩

theorem freshId_numberedItems :
    (∃ draws, draws ≤ numberedItems.size + 1 ∧ numberedItems.ids.FirstFree
      (· ∈ numberedItems.allIds) draws "item-3" ⟨"item", 3⟩) ∧
    (numberedItems.workThrough
      [.draw, .command .standard (.duplicate "item-2"), .edit fun n => { n with children := [] },
        .modify rootId id, .draw]).1.Nodup := by
  have hid : numberedItems.freshId.1 = "item-3" := by decide +kernel
  have hsource : numberedItems.freshId.2.ids = ⟨"item", 3⟩ := by decide +kernel
  obtain ⟨⟨draws, hle, -, hfirst, -⟩, hnodup⟩ := freshId_spec numberedItems rfl rfl
  rw [hid, hsource] at hfirst
  exact ⟨⟨draws, hle, hfirst⟩, hnodup _⟩

end Tree

end PageEditor
