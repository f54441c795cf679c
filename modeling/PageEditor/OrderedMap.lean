/-!
# Ordered maps

Maps from texts that remember the order in which their keys came. Writing to a key that is there
keeps its place. Two maps agree (`same`) when they have the same entries in any order.
-/
set_option autoImplicit false

namespace PageEditor

/-! ## Entries -/

namespace Entries

variable {α : Type}

/-- Overwrites the first entry of `k`, or puts a new one at the end. -/
def put (k : String) (v : α) : List (String × α) → List (String × α)
  | [] => [(k, v)]
  | e :: es => if e.1 = k then (k, v) :: es else e :: put k v es

theorem mem_keys_put {k x : String} {v : α} (es : List (String × α)) :
    x ∈ (put k v es).map Prod.fst ↔ x = k ∨ x ∈ es.map Prod.fst := by
  induction es with
  | nil => simp [put]
  | cons e es ih =>
    by_cases h : e.1 = k
    · simp [put, h]
    · simp only [put, h, if_false, List.map_cons, List.mem_cons, ih]
      exact or_left_comm

theorem nodup_put {k : String} {v : α} {es : List (String × α)}
    (h : (es.map Prod.fst).Nodup) : ((put k v es).map Prod.fst).Nodup := by
  induction es with
  | nil => simp [put]
  | cons e es ih =>
    simp only [List.map_cons, List.nodup_cons] at h
    by_cases he : e.1 = k
    · simp only [put, he, if_true, List.map_cons, List.nodup_cons]
      exact ⟨he ▸ h.1, h.2⟩
    · simp only [put, he, if_false, List.map_cons, List.nodup_cons]
      refine ⟨fun hm => ?_, ih h.2⟩
      rcases (mem_keys_put es).1 hm with hk | hk
      · exact he hk
      · exact h.1 hk

theorem put_of_notMem {k : String} {v : α} {es : List (String × α)}
    (h : k ∉ es.map Prod.fst) : put k v es = es ++ [(k, v)] := by
  induction es with
  | nil => rfl
  | cons e es ih =>
    simp only [List.map_cons, List.mem_cons, not_or] at h
    rw [put, if_neg (Ne.symm h.1), ih h.2, List.cons_append]

theorem lookup_entry (k x : String) (v : α) (es : List (String × α)) :
    ((k, v) :: es).lookup x = if x = k then some v else es.lookup x := by
  rw [List.lookup_cons]
  by_cases hx : x = k
  · rw [if_pos hx, beq_iff_eq.2 hx]
  · rw [if_neg hx, beq_eq_false_iff_ne.2 hx]

theorem lookup_put (k x : String) (v : α) (es : List (String × α)) :
    (put k v es).lookup x = if x = k then some v else es.lookup x := by
  induction es with
  | nil => exact lookup_entry k x v []
  | cons e es ih =>
    obtain ⟨k', v'⟩ := e
    rw [put]
    split
    · rename_i hk
      obtain rfl : k' = k := hk
      rw [lookup_entry, lookup_entry]
      split <;> rfl
    · rename_i hk
      rw [lookup_entry, lookup_entry, ih]
      by_cases hx : x = k
      · rw [if_pos hx, if_pos hx, if_neg (hx ▸ Ne.symm hk)]
      · rw [if_neg hx, if_neg hx]

theorem lookup_eq_some_iff {k : String} {v : α} {es : List (String × α)}
    (h : (es.map Prod.fst).Nodup) : es.lookup k = some v ↔ (k, v) ∈ es := by
  induction es with
  | nil => simp
  | cons e es ih =>
    obtain ⟨a, b⟩ := e
    simp only [List.map_cons, List.nodup_cons] at h
    rw [lookup_entry]
    by_cases hk : k = a
    · subst hk
      have hno : (k, v) ∉ es := fun hm => h.1 (List.mem_map.2 ⟨_, hm, rfl⟩)
      simp [hno, eq_comm]
    · simp [hk, ih h.2]

end Entries

/-! ## Maps -/

/-- Entries in the order of their keys' first appearance, each key once. -/
structure OrderedMap (α : Type) where
  entries : List (String × α)
  nodup : (entries.map Prod.fst).Nodup

namespace OrderedMap

variable {α : Type}

instance [DecidableEq α] : DecidableEq (OrderedMap α) := fun a b =>
  if h : a.entries = b.entries then
    isTrue (by cases a; cases b; cases h; rfl)
  else isFalse fun e => h (congrArg entries e)

def empty : OrderedMap α := ⟨[], List.nodup_nil⟩

instance : Inhabited (OrderedMap α) := ⟨empty⟩

def isEmpty (m : OrderedMap α) : Bool := m.entries.isEmpty

def size (m : OrderedMap α) : Nat := m.entries.length

def keys (m : OrderedMap α) : List String := m.entries.map Prod.fst

def get? (m : OrderedMap α) (k : String) : Option α := m.entries.lookup k

/-- Writes `v` under `k`; a key that is there keeps its place. -/
def insert (m : OrderedMap α) (k : String) (v : α) : OrderedMap α :=
  ⟨Entries.put k v m.entries, Entries.nodup_put m.nodup⟩

/-- Drops `k`; the other keys keep their order. -/
def erase (m : OrderedMap α) (k : String) : OrderedMap α :=
  ⟨m.entries.filter (·.1 != k), by
    have h : ((m.entries.filter (·.1 != k)).map Prod.fst).Sublist (m.entries.map Prod.fst) :=
      List.filter_sublist.map _
    exact h.nodup m.nodup⟩

/-- Writes all the entries of a list, front to back. -/
def insertAll (m : OrderedMap α) (es : List (String × α)) : OrderedMap α :=
  es.foldl (fun m e => m.insert e.1 e.2) m

def ofList (es : List (String × α)) : OrderedMap α := empty.insertAll es

theorem ext {a b : OrderedMap α} (h : a.entries = b.entries) : a = b := by
  cases a
  cases b
  cases h
  rfl

theorem get?_eq_some_iff (m : OrderedMap α) {k : String} {v : α} :
    m.get? k = some v ↔ (k, v) ∈ m.entries :=
  Entries.lookup_eq_some_iff m.nodup

theorem get?_insert (m : OrderedMap α) (k x : String) (v : α) :
    (m.insert k v).get? x = if x = k then some v else m.get? x :=
  Entries.lookup_put k x v m.entries

/-- New keys come behind the ones that are there. -/
theorem entries_insertAll {es : List (String × α)} : ∀ {m : OrderedMap α},
    ((m.entries ++ es).map Prod.fst).Nodup → (m.insertAll es).entries = m.entries ++ es := by
  induction es with
  | nil => exact fun _ => (List.append_nil _).symm
  | cons e es ih =>
    intro m h
    have hnew : e.1 ∉ m.entries.map Prod.fst := by
      rw [List.map_append, List.map_cons, List.nodup_append] at h
      exact fun hmem => h.2.2 _ hmem _ List.mem_cons_self rfl
    have hinsert : (m.insert e.1 e.2).entries = m.entries ++ [e] := Entries.put_of_notMem hnew
    have hmore : (m.insertAll (e :: es)).entries = ((m.insert e.1 e.2).insertAll es).entries := rfl
    rw [hmore, ih, hinsert, List.append_assoc, List.singleton_append]
    rw [hinsert, List.append_assoc]
    exact h

theorem ofList_entries (m : OrderedMap α) : ofList m.entries = m :=
  ext (entries_insertAll m.nodup)

/-- The same entries, in whatever order. -/
def same [DecidableEq α] (a b : OrderedMap α) : Bool :=
  a.size == b.size && a.entries.all fun e => b.get? e.1 == some e.2

end OrderedMap

end PageEditor
