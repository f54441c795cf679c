import PageEditor.Edit.Structure
import PageEditor.Markup.Page
import PageEditor.Proofs.Tree.Nodes

/-!
# Ids that are drawn

Ids that a source gives out on its way from one count to a later one are all different, and none of
them is the root's. So are the ids of the nodes of some markup and the ids of copied nodes, and a copy
has no id that was taken.
-/
set_option autoImplicit false

namespace PageEditor

namespace IdSource

/-! ## Counts and ids -/

theorem toString_injective {a b : Nat} (h : toString a = toString b) : a = b := by
  have hdigits : Nat.toDigits 10 a = Nat.toDigits 10 b := by
    have hlist := congrArg String.toList h
    simpa [toString, Nat.repr] using hlist
  have hvalue := congrArg (fun ds => Nat.ofDigitChars 10 ds 0) hdigits
  simpa [Nat.ofDigitChars_ten_toDigits] using hvalue

theorem id_injective {seed : String} {j k : Nat} (h : id seed j = id seed k) : j = k := by
  refine toString_injective ?_
  have hlist := congrArg String.toList h
  simp only [id, String.toList_append, List.append_cancel_left_eq] at hlist
  exact String.toList_injective hlist

theorem id_ne_rootId (seed : String) (k : Nat) : id seed k ≠ rootId := by
  intro h
  have hdash : '-' ∈ rootId.toList := by
    rw [← h]
    simp [id]
  exact absurd hdash (by decide)

/-! ## Drawing -/

/-- The ids were given out by `g` before it became `g'`. -/
structure Drawn (g g' : IdSource) (xs : List String) : Prop where
  seed : g'.seed = g.seed
  le : g.count ≤ g'.count
  nodup : xs.Nodup
  made : ∀ x ∈ xs, ∃ k, g.count < k ∧ k ≤ g'.count ∧ x = id g.seed k

variable {g g' g'' : IdSource} {xs ys : List String}

theorem Drawn.nil (g : IdSource) : Drawn g g [] :=
  ⟨rfl, Nat.le_refl _, List.nodup_nil, (by rintro _ ⟨⟩)⟩

theorem Drawn.append (h : Drawn g g' xs) (h' : Drawn g' g'' ys) : Drawn g g'' (xs ++ ys) := by
  have hle := h.le
  have hle' := h'.le
  refine ⟨h'.seed.trans h.seed, by omega, ?_, ?_⟩
  · refine List.nodup_append.2 ⟨h.nodup, h'.nodup, ?_⟩
    intro x hx y hy hxy
    obtain ⟨j, _, hj, hxj⟩ := h.made x hx
    obtain ⟨k, hk, _, hyk⟩ := h'.made y hy
    rw [hxj, hyk, h.seed] at hxy
    have := id_injective hxy
    omega
  · intro x hx
    rcases List.mem_append.1 hx with hx | hx
    · obtain ⟨k, hk, hk', rfl⟩ := h.made x hx
      exact ⟨k, hk, by omega, rfl⟩
    · obtain ⟨k, hk, hk', rfl⟩ := h'.made x hx
      exact ⟨k, by omega, hk', by rw [h.seed]⟩

/-- Ids that were drawn and then not used do no harm. -/
theorem Drawn.sublist (h : Drawn g g' xs) (hs : ys.Sublist xs) : Drawn g g' ys :=
  ⟨h.seed, h.le, hs.nodup h.nodup, fun y hy => h.made y (hs.subset hy)⟩

theorem drawn_next (g : IdSource) : Drawn g g.next.2 [g.next.1] := by
  refine ⟨rfl, Nat.le_succ _, by simp, ?_⟩
  intro x hx
  rw [List.mem_singleton.1 hx]
  exact ⟨g.count + 1, Nat.lt_succ_self _, Nat.le_refl _, rfl⟩

theorem drawn_fresh (g : IdSource) (taken : List String) :
    Drawn g (g.fresh taken).2 [(g.fresh taken).1] := by
  fun_induction fresh g taken with
  | case1 g taken _ ih => exact ((drawn_next g).append ih).sublist (List.sublist_cons_self _ _)
  | case2 g taken _ => exact drawn_next g

theorem fresh_notMem (g : IdSource) (taken : List String) : (g.fresh taken).1 ∉ taken := by
  fun_induction fresh g taken with
  | case1 g taken _ ih =>
    obtain ⟨k, hk, _, hx⟩ := (drawn_fresh g.next.2 (taken.erase g.next.1)).made _
      (List.mem_singleton_self _)
    have hne : (g.next.2.fresh (taken.erase g.next.1)).1 ≠ g.next.1 := by
      rw [hx]
      intro h
      have hcount : k = g.count + 1 := id_injective h
      simp only [next] at hk
      omega
    exact fun hmem => ih ((List.mem_erase_of_ne hne).2 hmem)
  | case2 g taken h => exact h

end IdSource

open IdSource (Drawn)

namespace Node

/-! ## Nodes of markup -/

theorem ids_withPlace (n : Node) (place : Place) : (n.withPlace place).ids = n.ids := by
  rw [ids_eq, ids_eq]
  rfl

/-- The ids of an element: its own and its children's. Those of a run of text that stands alone are
drawn and not used. -/
theorem drawn_ofMarkup_element {imports : List Import} {g : IdSource} {place : Place}
    {tag : String} {attributes : List Attribute} {held : List Markup}
    (h : Drawn g.next.2 (allOfMarkup imports g.next.2 held).2
      (idsAll (allOfMarkup imports g.next.2 held).1)) :
    Drawn g (ofMarkup imports g (.element place tag attributes held)).2
      (ofMarkup imports g (.element place tag attributes held)).1.ids := by
  have hall := (IdSource.drawn_next g).append h
  have hone : Drawn g (allOfMarkup imports g.next.2 held).2 [g.next.1] :=
    hall.sublist (List.sublist_append_left _ _)
  rcases held with _ | ⟨m, _ | ⟨m', ms⟩⟩
  · exact hone
  · cases m with
    | text p t => exact hone
    | expression => exact hall
    | element => exact hall
  · cases m <;> exact hall

mutual

theorem drawn_ofMarkup (imports : List Import) (g : IdSource) :
    (m : Markup) → Drawn g (ofMarkup imports g m).2 (ofMarkup imports g m).1.ids
  | .text _ _ => IdSource.drawn_next g
  | .expression _ _ => IdSource.drawn_next g
  | .element _ _ _ held => drawn_ofMarkup_element (drawn_allOfMarkup imports g.next.2 held)

theorem drawn_allOfMarkup (imports : List Import) (g : IdSource) :
    (ms : List Markup) → Drawn g (allOfMarkup imports g ms).2 (idsAll (allOfMarkup imports g ms).1)
  | [] => Drawn.nil g
  | m :: ms => by
    rw [allOfMarkup]
    exact (drawn_ofMarkup imports g m).append (drawn_allOfMarkup imports _ ms)

end

/-! ## Copies -/

mutual

theorem drawn_copy (taken : List String) (g : IdSource) :
    (n : Node) → Drawn g (copy taken g n).2 (copy taken g n).1.ids
  | ⟨_, _, _, _, children⟩ =>
    (IdSource.drawn_fresh g taken).append (drawn_copyAll taken (g.fresh taken).2 children)

theorem drawn_copyAll (taken : List String) (g : IdSource) :
    (ns : List Node) → Drawn g (copyAll taken g ns).2 (idsAll (copyAll taken g ns).1)
  | [] => Drawn.nil g
  | n :: ns => by
    rw [copyAll]
    exact (drawn_copy taken g n).append (drawn_copyAll taken _ ns)

end

mutual

theorem copy_notMem (taken : List String) (g : IdSource) :
    (n : Node) → ∀ x ∈ (copy taken g n).1.ids, x ∉ taken
  | ⟨_, _, _, _, children⟩, x, hx => by
    rcases List.mem_cons.1 hx with rfl | hx
    · exact IdSource.fresh_notMem g taken
    · exact copyAll_notMem taken (g.fresh taken).2 children x hx

theorem copyAll_notMem (taken : List String) (g : IdSource) :
    (ns : List Node) → ∀ x ∈ idsAll (copyAll taken g ns).1, x ∉ taken
  | [], x, hx => by cases hx
  | n :: ns, x, hx => by
    rw [copyAll] at hx
    rcases List.mem_append.1 hx with hx | hx
    · exact copy_notMem taken g n x hx
    · exact copyAll_notMem taken _ ns x hx

end

mutual

theorem ids_forget : (n : Node) → n.forget.ids = n.ids
  | ⟨_, _, _, _, children⟩ => by
    rw [forget, ids, ids, idsAll_forgetAll children]

theorem idsAll_forgetAll : (ns : List Node) → idsAll (forgetAll ns) = idsAll ns
  | [] => rfl
  | n :: ns => by
    rw [forgetAll, idsAll, idsAll, ids_forget n, idsAll_forgetAll ns]

end

end Node

/-! ## Taken ids -/

/-- With the edges of its nodes for an index a tree knows the ids of all its nodes. -/
theorem Tree.takenIds_perm {t : Tree} (hroot : t.root.id = rootId)
    (hindex : t.parents = t.root.edges) : t.takenIds.Perm t.allIds := by
  rw [takenIds, hindex, ← hroot]
  exact t.root.ids_perm.symm

end PageEditor
