import PageEditor.Component.Environment

/-!
# Permission by path

A package may provide the family of the longest allowed path that it lies within: the path itself, or
one that is followed by a slash in it. A path that is allowed as well decides for just those packages
within it that no longer allowed path decides for, and a package that only begins with the same
characters is none of them.
-/
set_option autoImplicit false

namespace PageEditor

/-! ## Paths above a package -/

/-- The package is the path, or stands below it. -/
def LiesWithin (package path : String) : Prop :=
  package = path ∨ ∃ below, package = path ++ "/" ++ below

theorem mem_slashPrefixes {cs path : List Char} :
    path ∈ slashPrefixes cs ↔ ∃ below, cs = path ++ '/' :: below := by
  induction cs generalizing path with
  | nil => simp [slashPrefixes]
  | cons c cs ih =>
    rw [slashPrefixes, List.mem_append, List.mem_map]
    cases path with
    | nil => by_cases hc : c = '/' <;> simp [hc]
    | cons d path =>
      have hfirst : d :: path ∉ if c = '/' then [[]] else [] := by split <;> simp
      simp only [hfirst, false_or, List.cons.injEq, List.cons_append, ih]
      constructor
      · rintro ⟨_, ⟨below, rfl⟩, rfl, rfl⟩
        exact ⟨below, rfl, rfl⟩
      · rintro ⟨below, rfl, rfl⟩
        exact ⟨path, ⟨below, rfl⟩, rfl, rfl⟩

theorem pairwise_slashPrefixes (cs : List Char) :
    (slashPrefixes cs).Pairwise fun a b => a.length < b.length := by
  induction cs with
  | nil => exact .nil
  | cons c cs ih =>
    rw [slashPrefixes, List.pairwise_append]
    refine ⟨by split <;> simp, ?_, ?_⟩
    · exact List.pairwise_map.2 (ih.imp fun h => Nat.succ_lt_succ h)
    · intro a ha b hb
      obtain ⟨b, -, rfl⟩ := List.mem_map.1 hb
      obtain rfl : a = [] := by
        split at ha
        · exact List.mem_singleton.1 ha
        · cases ha
      exact Nat.succ_pos _

/-- The paths in which a family is looked up, the longest one first. -/
def pathsAbove (package : String) : List String :=
  (package.toList :: (slashPrefixes package.toList).reverse).map String.ofList

theorem mem_pathsAbove {package path : String} :
    path ∈ pathsAbove package ↔ LiesWithin package path := by
  have hself : package = path ↔ path.toList = package.toList := by
    rw [String.toList_inj, eq_comm]
  have hbelow : (∃ below, package = path ++ "/" ++ below) ↔
      ∃ below, package.toList = path.toList ++ '/' :: below := by
    constructor
    · rintro ⟨below, rfl⟩
      exact ⟨below.toList, by simp⟩
    · rintro ⟨below, h⟩
      exact ⟨String.ofList below, String.toList_injective (by simp [h])⟩
  have hlist : path ∈ pathsAbove package ↔
      path.toList ∈ package.toList :: (slashPrefixes package.toList).reverse := by
    rw [pathsAbove, List.mem_map]
    constructor
    · rintro ⟨cs, hcs, rfl⟩
      rwa [String.toList_ofList]
    · exact fun h => ⟨_, h, String.ofList_toList⟩
  rw [hlist, List.mem_cons, List.mem_reverse, mem_slashPrefixes, LiesWithin, hself, hbelow]

theorem pairwise_pathsAbove (package : String) :
    (pathsAbove package).Pairwise fun a b => b.length < a.length := by
  refine List.pairwise_map.2 (List.pairwise_cons.2 ⟨?_, ?_⟩)
  · intro cs hcs
    obtain ⟨below, hbelow⟩ := mem_slashPrefixes.1 (List.mem_reverse.1 hcs)
    simp only [String.length_ofList, hbelow, List.length_append, List.length_cons]
    omega
  · refine List.pairwise_reverse.2 ((pairwise_slashPrefixes _).imp fun h => ?_)
    simpa only [String.length_ofList] using h

theorem findSome?_eq_some_iff_longest {α : Type} {f : String → Option α} {paths : List String} {a : α}
    (h : paths.Pairwise fun a b => b.length < a.length) :
    paths.findSome? f = some a ↔ ∃ path, f path = some a ∧ path ∈ paths ∧
      ∀ other ∈ paths, (f other).isSome = true → other.length ≤ path.length := by
  rw [List.findSome?_eq_some_iff]
  constructor
  · rintro ⟨front, path, back, rfl, hpath, hfront⟩
    refine ⟨path, hpath, by simp, fun other hother hsome => ?_⟩
    have hback := (List.pairwise_cons.1 (List.pairwise_append.1 h).2.1).1
    rcases List.mem_append.1 hother with hother | hother
    · rw [hfront other hother] at hsome
      cases hsome
    · rcases List.mem_cons.1 hother with rfl | hother
      · exact Nat.le_refl _
      · exact Nat.le_of_lt (hback other hother)
  · rintro ⟨path, hpath, hmem, hlongest⟩
    obtain ⟨front, back, rfl⟩ := List.append_of_mem hmem
    refine ⟨front, path, back, rfl, hpath, fun other hother => ?_⟩
    have hshorter := (List.pairwise_append.1 h).2.2 other hother path List.mem_cons_self
    cases hvalue : f other with
    | none => rfl
    | some b =>
      have hle := hlongest other (List.mem_append_left _ hother) (by rw [hvalue]; rfl)
      omega

/-! ## Permission -/

namespace Packages

variable {p : Packages} {package path : String}

/-- The package lies within the path, and within no allowed path that is longer. -/
structure IsClosest (p : Packages) (path package : String) : Prop where
  within : LiesWithin package path
  longest : ∀ other, (p.families.get? other).isSome = true → LiesWithin package other →
    other.length ≤ path.length

theorem family?_eq (p : Packages) (package : String) :
    p.family? package = (pathsAbove package).findSome? p.families.get? := by
  rw [family?, pathsAbove, List.findSome?_map]
  rfl

theorem family?_eq_some_iff {family : Family} :
    p.family? package = some family ↔
      ∃ path, p.families.get? path = some family ∧ p.IsClosest path package := by
  rw [family?_eq, findSome?_eq_some_iff_longest (pairwise_pathsAbove package)]
  refine exists_congr fun path => and_congr_right fun _ => ⟨?_, ?_⟩
  · rintro ⟨hmem, hlongest⟩
    exact ⟨mem_pathsAbove.1 hmem, fun other hsome hwithin =>
      hlongest other (mem_pathsAbove.2 hwithin) hsome⟩
  · rintro ⟨hwithin, hlongest⟩
    exact ⟨mem_pathsAbove.2 hwithin, fun other hmem hsome =>
      hlongest other hsome (mem_pathsAbove.1 hmem)⟩

theorem family?_eq_none_iff :
    p.family? package = none ↔ ∀ path, LiesWithin package path → p.families.get? path = none := by
  rw [family?_eq, List.findSome?_eq_none_iff]
  simp only [mem_pathsAbove]

/-! ## One more allowed path -/

variable {family : Family}

theorem get?_allow (p : Packages) (path other : String) (family : Family) :
    (p.allow path family).families.get? other =
      if other = path then some family else p.families.get? other :=
  OrderedMap.get?_insert p.families path other family

theorem isSome_get?_allow {other : String} :
    ((p.allow path family).families.get? other).isSome = true ↔
      other = path ∨ (p.families.get? other).isSome = true := by
  rw [get?_allow]
  by_cases hother : other = path <;> simp [hother]

/-- The path decides for the packages that it is closest to. -/
theorem IsClosest.family?_allow (h : p.IsClosest path package) (family : Family) :
    (p.allow path family).family? package = some family := by
  refine family?_eq_some_iff.2 ⟨path, by rw [get?_allow, if_pos rfl], h.within, ?_⟩
  intro other hsome hwithin
  rcases isSome_get?_allow.1 hsome with rfl | hsome
  · exact Nat.le_refl _
  · exact h.longest other hsome hwithin

/-- For all other packages the same path is the closest one, with the same family. -/
theorem closest_allow_iff (h : ¬ p.IsClosest path package) {other : String} {f : Family} :
    (p.allow path family).families.get? other = some f ∧
        (p.allow path family).IsClosest other package ↔
      p.families.get? other = some f ∧ p.IsClosest other package := by
  constructor
  · rintro ⟨hother, hwithin, hlongest⟩
    have hclosest : p.IsClosest other package :=
      ⟨hwithin, fun q hsome => hlongest q (isSome_get?_allow.2 (.inr hsome))⟩
    rw [get?_allow] at hother
    split at hother
    · rename_i hpath
      exact absurd (hpath ▸ hclosest) h
    · exact ⟨hother, hclosest⟩
  · rintro ⟨hother, hclosest⟩
    have hne : other ≠ path := by
      rintro rfl
      exact h hclosest
    refine ⟨by rw [get?_allow, if_neg hne, hother], hclosest.within, fun q hsome hwithin => ?_⟩
    rcases isSome_get?_allow.1 hsome with rfl | hsome
    · -- A longer path would be closest itself.
      refine Nat.le_of_not_lt fun hlt => h ⟨hwithin, fun r hr hrwithin => ?_⟩
      exact Nat.le_trans (hclosest.longest r hr hrwithin) (Nat.le_of_lt hlt)
    · exact hclosest.longest q hsome hwithin

theorem family?_allow_of_not (h : ¬ p.IsClosest path package) (family : Family) :
    (p.allow path family).family? package = p.family? package := by
  refine Option.ext fun f => ?_
  rw [family?_eq_some_iff, family?_eq_some_iff]
  exact exists_congr fun other => closest_allow_iff h

/-- A package has the family of the longest allowed path that it lies within, and none where there is
no such path. Allowing one more path changes nothing for the packages that do not lie within it, nor
for those that lie within a longer allowed path; all other packages get its family. -/
theorem family?_spec (p : Packages) (package : String) :
    (∀ family, p.family? package = some family ↔
      ∃ path, p.families.get? path = some family ∧ p.IsClosest path package) ∧
    (p.family? package = none ↔
      ∀ path, LiesWithin package path → p.families.get? path = none) ∧
    ∀ path family,
      (¬ LiesWithin package path → (p.allow path family).family? package = p.family? package) ∧
      (¬ p.IsClosest path package →
        (p.allow path family).family? package = p.family? package) ∧
      (p.IsClosest path package → (p.allow path family).family? package = some family) := by
  refine ⟨fun family => family?_eq_some_iff, family?_eq_none_iff, fun path family => ⟨?_, ?_, ?_⟩⟩
  · exact fun hout => family?_allow_of_not (fun h => hout h.within) family
  · exact fun h => family?_allow_of_not h family
  · exact fun h => h.family?_allow family

instance (package path : String) : Decidable (LiesWithin package path) :=
  decidable_of_iff _ mem_pathsAbove

instance (p : Packages) (path package : String) : Decidable (p.IsClosest path package) :=
  decidable_of_iff
    (LiesWithin package path ∧ ∀ other ∈ pathsAbove package,
      (p.families.get? other).isSome = true → other.length ≤ path.length)
    ⟨fun h => ⟨h.1, fun other hsome hwithin => h.2 other (mem_pathsAbove.2 hwithin) hsome⟩,
      fun h => ⟨h.within, fun other hmem hsome => h.longest other hsome (mem_pathsAbove.1 hmem)⟩⟩

/-- A path within another one, and the empty path, within which all packages with a slash in front
lie. -/
def nested : Packages := ⟨.ofList [("ui", .icon), ("ui/forms", .widget), ("", .builtin)]⟩

theorem family?_nested :
    nested.family? "ui/forms/input" = some .widget ∧ nested.family? "ui//forms" = some .icon ∧
    nested.family? "/ui" = some .builtin ∧ nested.family? "uikit/forms" = none ∧
    (nested.allow "ui/form" .builtin).family? "ui/forms/input" = some .widget ∧
    (nested.allow "ui" .builtin).family? "ui/forms/input" = some .widget ∧
    (nested.allow "ui/forms/" .builtin).family? "ui/forms/" = some .builtin := by
  have hinput := (family?_spec nested "ui/forms/input").1 .widget
  have hdouble := (family?_spec nested "ui//forms").1 .icon
  have hfront := (family?_spec nested "/ui").1 .builtin
  have hform := (family?_spec nested "ui/forms/input").2.2 "ui/form" .builtin
  have hshorter := (family?_spec nested "ui/forms/input").2.2 "ui" .builtin
  have hslash := (family?_spec nested "ui/forms/").2.2 "ui/forms/" .builtin
  refine ⟨hinput.2 ⟨"ui/forms", ?_⟩, hdouble.2 ⟨"ui", ?_⟩, hfront.2 ⟨"", ?_⟩, ?_, ?_, ?_, ?_⟩
  · decide +kernel
  · decide +kernel
  · decide +kernel
  · decide +kernel
  · exact (hform.1 (by decide +kernel)).trans (by decide +kernel)
  · exact (hshorter.2.1 (by decide +kernel)).trans (by decide +kernel)
  · exact hslash.2.2 (by decide +kernel)

end Packages

end PageEditor
