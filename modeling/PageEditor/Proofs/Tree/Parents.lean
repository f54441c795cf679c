import Mathlib.Logic.Relation
import PageEditor.Proofs.Tree.Descendants

/-!
# Parents

Lists of parents of any shape: an entry may come twice, entries may form loops, and a parent need
not be listed. The search for descendants follows the parent links all the same. Giving an entry
another parent changes one link. So a loop that was not there before goes through the new link, and
then the new parent lies below the entry already.
-/
set_option autoImplicit false

namespace PageEditor

open Relation (TransGen ReflTransGen)

variable {α : Type}

/-! ## The search -/

namespace Hierarchy

theorem below_iff {h : Hierarchy α} {a b : α} : h.Below a b ↔ TransGen h.Link a b := by
  constructor
  · intro hbelow
    induction hbelow with
    | child hb => exact .single hb
    | step _ hc ih => exact .tail ih hc
  · intro hlinks
    induction hlinks with
    | single hb => exact .child hb
    | tail _ hc ih => exact .step ih hc

theorem wouldCycle_iff [DecidableEq α] {h : Hierarchy α} {id parent : α} :
    h.wouldCycle id parent = true ↔ parent = id ∨ parent ∈ h.descendants id := by
  rw [wouldCycle, isDescendant, Bool.or_eq_true, beq_iff_eq, List.contains_iff_mem,
    eq_comm (a := id)]

theorem nodup_collect [DecidableEq α] {h : Hierarchy α} {start : α} {found todo : List α}
    (htodo : ∀ x ∈ todo, x ∈ h.entries) (hfound : found.Nodup) :
    (h.collect start found todo htodo).Nodup := by
  fun_induction collect h start found todo htodo with
  | case1 => exact hfound
  | case2 _ _ _ _ _ _ ih => exact ih hfound
  | case3 _ _ _ _ hx _ ih => exact ih (List.nodup_cons.2 ⟨fun hmem => hx (.inr hmem), hfound⟩)

end Hierarchy

namespace ParentList

/-- The list gives an entry `child` the parent `parent`. -/
def Names (l : ParentList α) (parent child : α) : Prop := (child, some parent) ∈ l.links

/-- No entry lies below itself. -/
def Acyclic (l : ParentList α) : Prop := ∀ id, ¬TransGen l.Names id id

variable [DecidableEq α] {l l' : ParentList α} {id a b : α} {parent : Option α}

theorem link_iff : l.hierarchy.Link a b ↔ l.Names a b := by
  simp [Hierarchy.Link, hierarchy, children, Names]

theorem mem_descendants_iff :
    b ∈ l.hierarchy.descendants a ↔ b ≠ a ∧ TransGen l.Names a b := by
  have hlink : l.hierarchy.Link = l.Names := by
    funext x y
    exact propext link_iff
  rw [Hierarchy.mem_descendants_iff, Hierarchy.below_iff, hlink]

theorem wouldCycle_iff : l.hierarchy.wouldCycle a b = true ↔ ReflTransGen l.Names a b := by
  rw [Hierarchy.wouldCycle_iff, mem_descendants_iff, Relation.reflTransGen_iff_eq_or_transGen]
  by_cases hba : b = a
  · simp [hba]
  · simp [hba]

/-! ## Another parent -/

theorem replaceParent?_eq_none_iff {links : List (α × Option α)} :
    replaceParent? id parent links = none ↔ id ∉ links.map (·.1) := by
  induction links with
  | nil => simp [replaceParent?]
  | cons link links ih =>
    by_cases hlink : link.1 = id
    · simp [replaceParent?, hlink]
    · simp [replaceParent?, hlink, ih, Ne.symm hlink]

theorem replaceParent?_eq_some {links links' : List (α × Option α)}
    (h : replaceParent? id parent links = some links') :
    ∃ before old after, links = before ++ (id, old) :: after ∧ id ∉ before.map (·.1) ∧
      links' = before ++ (id, parent) :: after := by
  induction links generalizing links' with
  | nil => simp [replaceParent?] at h
  | cons link links ih =>
    by_cases hlink : link.1 = id
    · rw [replaceParent?, if_pos hlink, Option.some.injEq] at h
      exact ⟨[], link.2, links, by simp [← hlink], by simp, h.symm⟩
    · rw [replaceParent?, if_neg hlink, Option.map_eq_some_iff] at h
      obtain ⟨more, hmore, rfl⟩ := h
      obtain ⟨before, old, after, rfl, hbefore, rfl⟩ := ih hmore
      exact ⟨link :: before, old, after, rfl, by simp [hbefore, Ne.symm hlink], rfl⟩

theorem names_of_replaceParent? {links : List (α × Option α)}
    (h : replaceParent? id parent l.links = some links) (hab : Names ⟨links⟩ a b) :
    l.Names a b ∨ parent = some a ∧ b = id := by
  obtain ⟨before, old, after, hl, _, rfl⟩ := replaceParent?_eq_some h
  simp only [Names, hl, List.mem_append, List.mem_cons, Prod.mk.injEq] at hab ⊢
  rcases hab with hb | ⟨rfl, hp⟩ | ha
  · exact .inl (.inl hb)
  · exact .inr ⟨hp.symm, rfl⟩
  · exact .inl (.inr (.inr ha))

/-- A way along the new links is a way along the old ones, or it leads to the new parent first and
goes on from the entry. -/
theorem leads_of_replaceParent? {links : List (α × Option α)}
    (h : replaceParent? id parent l.links = some links) (hab : TransGen (Names ⟨links⟩) a b) :
    TransGen l.Names a b ∨
      ∃ p, parent = some p ∧ ReflTransGen l.Names a p ∧ ReflTransGen l.Names id b := by
  induction hab with
  | single hlink =>
    rcases names_of_replaceParent? h hlink with hold | ⟨hp, rfl⟩
    · exact .inl (.single hold)
    · exact .inr ⟨_, hp, .refl, .refl⟩
  | tail _ hlink ih =>
    rcases names_of_replaceParent? h hlink with hold | ⟨hp, rfl⟩
    · rcases ih with hway | ⟨p, hp, hto, hfrom⟩
      · exact .inl (.tail hway hold)
      · exact .inr ⟨p, hp, hto, .tail hfrom hold⟩
    · rcases ih with hway | ⟨p, hp', hto, _⟩
      · exact .inr ⟨_, hp, hway.to_reflTransGen, .refl⟩
      · exact .inr ⟨p, hp', hto, .refl⟩

theorem setParent?_eq_some (h : l.setParent? id parent = some l') :
    (∀ p, parent = some p → ¬ReflTransGen l.Names id p) ∧
      replaceParent? id parent l.links = some l'.links := by
  rw [setParent?] at h
  split at h
  · cases h
  · rename_i hcycle
    obtain ⟨links, hlinks, rfl⟩ := Option.map_eq_some_iff.1 h
    refine ⟨?_, hlinks⟩
    rintro p rfl hway
    exact hcycle (wouldCycle_iff.2 hway)

theorem Acyclic.setParent? (hl : l.Acyclic) (h : l.setParent? id parent = some l') :
    l'.Acyclic := by
  obtain ⟨hno, hlinks⟩ := setParent?_eq_some h
  intro x hx
  rcases leads_of_replaceParent? hlinks hx with hway | ⟨p, hp, hto, hfrom⟩
  · exact hl x hway
  · exact hno p hp (hfrom.trans hto)

theorem setParent?_eq_none_iff : l.setParent? id parent = none ↔
    id ∉ l.hierarchy.entries ∨
      ∃ p, parent = some p ∧ (p = id ∨ p ∈ l.hierarchy.descendants id) := by
  have hlisted : replaceParent? id parent l.links = none ↔ id ∉ l.hierarchy.entries :=
    replaceParent?_eq_none_iff
  rw [ParentList.setParent?]
  cases parent with
  | none => simp [hlisted]
  | some p =>
    rw [Option.any_some]
    split
    · rename_i hcycle
      simpa using .inr (Hierarchy.wouldCycle_iff.1 hcycle)
    · rename_i hcycle
      rw [Hierarchy.wouldCycle_iff] at hcycle
      simp [hlisted, hcycle]

/-! ## Calls -/

/-- Gives an entry another parent if that is possible, and tells whether it was. -/
def setParent (l : ParentList α) (id : α) (parent : Option α) : Bool × ParentList α :=
  match l.setParent? id parent with
  | none => (false, l)
  | some l' => (true, l')

/-- The list after some calls, each with an entry and its new parent. -/
def setParents (l : ParentList α) : List (α × Option α) → ParentList α
  | [] => l
  | (id, parent) :: calls => (l.setParent id parent).2.setParents calls

theorem setParent_cases (l : ParentList α) (id : α) (parent : Option α) :
    (l.setParent? id parent = none ∧ l.setParent id parent = (false, l)) ∨
      ∃ l', l.setParent? id parent = some l' ∧ l.setParent id parent = (true, l') := by
  unfold setParent
  cases l.setParent? id parent with
  | none => exact .inl ⟨rfl, rfl⟩
  | some l' => exact .inr ⟨l', rfl, rfl⟩

theorem setParent_fst_iff : (l.setParent id parent).1 = true ↔ id ∈ l.hierarchy.entries ∧
    ∀ p, parent = some p → p ≠ id ∧ p ∉ l.hierarchy.descendants id := by
  have hnone : l.setParent? id parent = none ↔ _ := setParent?_eq_none_iff
  rcases setParent_cases l id parent with ⟨heq, hcall⟩ | ⟨l', heq, hcall⟩
  · rw [hcall]
    simp only [heq, true_iff] at hnone
    grind
  · rw [hcall]
    simp only [heq, reduceCtorEq, false_iff, not_or, Classical.not_not] at hnone
    grind

theorem Acyclic.setParents (calls : List (α × Option α)) :
    ∀ {l : ParentList α}, l.Acyclic → (l.setParents calls).Acyclic := by
  induction calls with
  | nil => exact fun hl => hl
  | cons call calls ih =>
    intro l hl
    rcases setParent_cases l call.1 call.2 with ⟨_, heq⟩ | ⟨l', hsome, heq⟩
    · rw [ParentList.setParents, heq]
      exact ih hl
    · rw [ParentList.setParents, heq]
      exact ih (hl.setParent? hsome)

/-- The search for descendants finds what lies below an entry, and each only once. A call gives the
first entry with an id another parent just if there is such an entry and the parent is neither the
entry nor a descendant of it, and else changes nothing. So no calls make a loop. -/
theorem descendants_setParents (l : ParentList α) :
    (∀ id x, x ∈ l.hierarchy.descendants id ↔ x ≠ id ∧ TransGen l.Names id x) ∧
      (∀ id, (l.hierarchy.descendants id).Nodup) ∧
      (∀ id parent,
        ((l.setParent id parent).1 = true ↔ id ∈ l.links.map (·.1) ∧
          ∀ p, parent = some p → p ≠ id ∧ p ∉ l.hierarchy.descendants id) ∧
        ((l.setParent id parent).1 = false → (l.setParent id parent).2 = l) ∧
        ((l.setParent id parent).1 = true → ∃ before old after,
          l.links = before ++ (id, old) :: after ∧ id ∉ before.map (·.1) ∧
            (l.setParent id parent).2.links = before ++ (id, parent) :: after)) ∧
      (l.Acyclic → ∀ calls, (l.setParents calls).Acyclic) := by
  refine ⟨fun _ _ => mem_descendants_iff, fun _ => Hierarchy.nodup_collect _ List.nodup_nil,
    fun id parent => ⟨setParent_fst_iff, ?_⟩, fun hl calls => hl.setParents calls⟩
  rcases setParent_cases l id parent with ⟨_, heq⟩ | ⟨l', hsome, heq⟩
  · rw [heq]
    exact ⟨fun _ => rfl, Bool.false_ne_true.elim⟩
  · rw [heq]
    exact ⟨fun h => absurd h.symm Bool.false_ne_true,
      fun _ => replaceParent?_eq_some (setParent?_eq_some hsome).2⟩

/-- Two trees of categories. -/
def categories : ParentList Nat := ⟨[(1, none), (2, some 1), (3, some 2), (4, none)]⟩

theorem lt_of_names_categories {a b : Nat} (hab : categories.Names a b) : a < b := by
  simp [Names, categories] at hab
  omega

theorem acyclic_categories : categories.Acyclic := by
  have hless : ∀ a b, TransGen categories.Names a b → a < b := by
    intro a b hab
    induction hab with
    | single hlink => exact lt_of_names_categories hlink
    | tail _ hlink ih => exact Nat.lt_trans ih (lt_of_names_categories hlink)
  exact fun id hid => Nat.lt_irrefl id (hless id id hid)

/-- The second call would make a loop. -/
theorem descendants_setParents_categories :
    categories.Acyclic ∧ (categories.setParents [(3, some 4), (4, some 3), (2, none)]).Acyclic ∧
      (categories.setParent 1 (some 3)).1 = false := by
  have hall := descendants_setParents categories
  refine ⟨acyclic_categories, hall.2.2.2 acyclic_categories _, ?_⟩
  rw [Bool.eq_false_iff, Ne, (hall.2.2.1 1 (some 3)).1]
  intro h
  refine (h.2 3 rfl).2 ((hall.1 1 3).2 ⟨by decide, ?_⟩)
  have htwo : categories.Names 1 2 := by simp [Names, categories]
  have hthree : categories.Names 2 3 := by simp [Names, categories]
  exact .tail (.single htwo) hthree

end ParentList

end PageEditor
