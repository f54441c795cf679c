import PageEditor.Hierarchy

/-!
# Descendants

What the search below an entry finds: exactly the entries that child links lead to, but for the entry
it starts from. Every found entry has its children among the found ones once the search is over.
-/
set_option autoImplicit false

namespace PageEditor.Hierarchy

variable {α : Type} [DecidableEq α]

/-- One or more child links lead from one entry to another. -/
inductive Below (h : Hierarchy α) : α → α → Prop
  | child {a b : α} (hb : h.Link a b) : Below h a b
  | step {a b c : α} (hb : Below h a b) (hc : h.Link b c) : Below h a c

variable {h : Hierarchy α} {start : α}

/-! ## The search -/

theorem subset_collect {found todo : List α} (htodo : ∀ x ∈ todo, x ∈ h.entries) :
    ∀ x ∈ found, x ∈ h.collect start found todo htodo := by
  fun_induction collect h start found todo htodo with
  | case1 found => exact fun x hx => hx
  | case2 found x rest _ _ _ ih => exact ih
  | case3 found x rest _ _ _ ih => exact fun y hy => ih y (List.mem_cons_of_mem x hy)

theorem todo_subset_collect {found todo : List α} (htodo : ∀ x ∈ todo, x ∈ h.entries) :
    ∀ x ∈ todo, x = start ∨ x ∈ h.collect start found todo htodo := by
  fun_induction collect h start found todo htodo with
  | case1 => exact fun x hx => by cases hx
  | case2 found x rest _ hx _ ih =>
    intro y hy
    rcases List.mem_cons.1 hy with rfl | hy
    · rcases hx with hx | hx
      · exact .inl hx
      · exact .inr (subset_collect _ y hx)
    · exact ih y hy
  | case3 found x rest _ hx _ ih =>
    intro y hy
    rcases List.mem_cons.1 hy with rfl | hy
    · exact .inr (subset_collect _ y List.mem_cons_self)
    · exact ih y (List.mem_append_right _ hy)

/-- The children of what is found are found in the end, if they are found or wait now. -/
theorem collect_closed {found todo : List α} (htodo : ∀ x ∈ todo, x ∈ h.entries)
    (hfound : ∀ x ∈ found, ∀ c ∈ h.children x, c = start ∨ c ∈ found ∨ c ∈ todo) :
    ∀ x ∈ h.collect start found todo htodo, ∀ c ∈ h.children x,
      c = start ∨ c ∈ h.collect start found todo htodo := by
  fun_induction collect h start found todo htodo with
  | case1 found =>
    intro x hx c hc
    rcases hfound x hx c hc with hc | hc | hc
    · exact .inl hc
    · exact .inr hc
    · cases hc
  | case2 found x rest _ hx _ ih =>
    refine ih ?_
    intro y hy c hc
    rcases hfound y hy c hc with hc | hc | hc
    · exact .inl hc
    · exact .inr (.inl hc)
    · rcases List.mem_cons.1 hc with rfl | hc
      · exact hx.imp_right .inl
      · exact .inr (.inr hc)
  | case3 found x rest _ hx _ ih =>
    refine ih ?_
    intro y hy c hc
    rcases List.mem_cons.1 hy with rfl | hy
    · exact .inr (.inr (List.mem_append_left _ hc))
    · rcases hfound y hy c hc with hc | hc | hc
      · exact .inl hc
      · exact .inr (.inl (List.mem_cons_of_mem x hc))
      · rcases List.mem_cons.1 hc with rfl | hc
        · exact .inr (.inl List.mem_cons_self)
        · exact .inr (.inr (List.mem_append_right _ hc))

theorem collect_below {found todo : List α} (htodo : ∀ x ∈ todo, x ∈ h.entries)
    (hfound : ∀ x ∈ found, x ≠ start ∧ h.Below start x) (hwait : ∀ x ∈ todo, h.Below start x) :
    ∀ x ∈ h.collect start found todo htodo, x ≠ start ∧ h.Below start x := by
  fun_induction collect h start found todo htodo with
  | case1 => exact hfound
  | case2 found x rest _ hx _ ih =>
    exact ih hfound fun y hy => hwait y (List.mem_cons_of_mem x hy)
  | case3 found x rest _ hx _ ih =>
    have hbelow := hwait x List.mem_cons_self
    refine ih ?_ ?_
    · intro y hy
      rcases List.mem_cons.1 hy with rfl | hy
      · exact ⟨fun hs => hx (.inl hs), hbelow⟩
      · exact hfound y hy
    · intro y hy
      rcases List.mem_append.1 hy with hy | hy
      · exact .step hbelow hy
      · exact hwait y (List.mem_cons_of_mem x hy)

/-! ## What is found -/

/-- A child of the start, or of a descendant of it, is the start or a descendant. -/
theorem descendants_closed (h : Hierarchy α) (start x : α)
    (hx : x = start ∨ x ∈ h.descendants start) :
    ∀ c ∈ h.children x, c = start ∨ c ∈ h.descendants start := by
  intro c hc
  rcases hx with rfl | hx
  · exact todo_subset_collect _ c hc
  · refine collect_closed _ ?_ x hx c hc
    intro y hy
    cases hy

theorem mem_descendants_iff (h : Hierarchy α) (start x : α) :
    x ∈ h.descendants start ↔ x ≠ start ∧ h.Below start x := by
  constructor
  · intro hx
    refine collect_below _ ?_ ?_ x hx
    · intro y hy
      cases hy
    · exact fun y hy => .child hy
  · rintro ⟨hne, hbelow⟩
    have hfound : x = start ∨ x ∈ h.descendants start := by
      clear hne
      induction hbelow with
      | child hb => exact descendants_closed h _ _ (.inl rfl) _ hb
      | step _ hc ih => exact descendants_closed h _ _ ih _ hc
    exact hfound.resolve_left hne

end PageEditor.Hierarchy
