/-!
# Hierarchies

Entries with children. `descendants` collects what lies below an entry, and ends even if the
entries form a loop. A `ParentList` is a hierarchy given by each entry's parent, which need not be
listed itself and may lie below the entry.
-/
set_option autoImplicit false

namespace PageEditor

variable {α : Type} [DecidableEq α]

/-! ## Descendants -/

/-- Finitely many entries, each with a list of children among them. -/
structure Hierarchy (α : Type) where
  entries : List α
  children : α → List α
  children_mem : ∀ {id c : α}, c ∈ children id → c ∈ entries

namespace Hierarchy

/-- What an entry counts until it is found: itself and the links that lead from it. -/
def weight (h : Hierarchy α) (found : List α) (e : α) : Nat :=
  if e ∈ found then 0 else (h.children e).length + 1

/-- The entries that are not yet found, counted together with their links. -/
def unfound (h : Hierarchy α) (found : List α) : Nat :=
  h.entries.foldr (fun e n => h.weight found e + n) 0

theorem weight_cons_le (h : Hierarchy α) (found : List α) (x e : α) :
    h.weight (x :: found) e ≤ h.weight found e := by
  unfold weight
  by_cases he : e ∈ found
  · simp [he]
  · rw [if_neg he]
    split <;> omega

theorem unfound_cons_lt (h : Hierarchy α) {found : List α} {x : α}
    (hx : x ∈ h.entries) (hf : x ∉ found) :
    h.unfound (x :: found) + (h.children x).length < h.unfound found := by
  have hle : ∀ (k : Nat) (l : List α) (m n : Nat), m + k ≤ n →
      l.foldr (fun e n => h.weight (x :: found) e + n) m + k
        ≤ l.foldr (fun e n => h.weight found e + n) n := by
    intro k l m n hmn
    induction l with
    | nil => exact hmn
    | cons e l ih =>
      have hw := h.weight_cons_le found x e
      simp only [List.foldr_cons]
      omega
  obtain ⟨a, b, hab⟩ := List.append_of_mem hx
  have hnew : h.weight (x :: found) x = 0 := if_pos List.mem_cons_self
  have hold : h.weight found x = (h.children x).length + 1 := if_neg hf
  have hb := hle 0 b 0 0 (Nat.le_refl 0)
  simp only [unfound, hab, List.foldr_append, List.foldr_cons, hnew, hold]
  refine Nat.lt_of_succ_le (hle ((h.children x).length + 1) a _ _ ?_)
  omega

/-- Adds to `found` what can be reached from the entries in `todo`, but for `start`. -/
def collect (h : Hierarchy α) (start : α) (found todo : List α)
    (htodo : ∀ x ∈ todo, x ∈ h.entries) : List α :=
  match todo with
  | [] => found
  | x :: rest =>
    if x = start ∨ x ∈ found then
      h.collect start found rest fun y hy => htodo y (List.mem_cons_of_mem x hy)
    else
      h.collect start (x :: found) (h.children x ++ rest) fun y hy =>
        (List.mem_append.1 hy).elim h.children_mem fun hr => htodo y (List.mem_cons_of_mem x hr)
termination_by h.unfound found + todo.length
decreasing_by
  · exact Nat.lt_succ_self _
  · rename_i hx
    have hlt := unfound_cons_lt h (htodo x List.mem_cons_self) fun hf => hx (.inr hf)
    rw [List.length_append, List.length_cons]
    omega

/-- Every entry below `id`, each once; never `id` itself. -/
def descendants (h : Hierarchy α) (id : α) : List α :=
  h.collect id [] (h.children id) fun _ => h.children_mem

def isDescendant (h : Hierarchy α) (ancestor candidate : α) : Bool :=
  (h.descendants ancestor).contains candidate

/-- Whether putting `id` below `parent` makes it lie below itself. -/
def wouldCycle (h : Hierarchy α) (id parent : α) : Bool :=
  id == parent || h.isDescendant id parent

/-- One child link, the relation that `descendants` follows. -/
def Link (h : Hierarchy α) (parent child : α) : Prop := child ∈ h.children parent

end Hierarchy

/-! ## Lists of parents -/

/-- Entries, each with its parent; top entries have none. -/
structure ParentList (α : Type) where
  links : List (α × Option α)
  deriving DecidableEq, Repr

namespace ParentList

def children (l : ParentList α) (id : α) : List α :=
  (l.links.filter (·.2 == some id)).map (·.1)

def hierarchy (l : ParentList α) : Hierarchy α where
  entries := l.links.map (·.1)
  children := l.children
  children_mem := by
    intro id c hc
    obtain ⟨link, hl, rfl⟩ := List.mem_map.1 hc
    exact List.mem_map.2 ⟨link, (List.mem_filter.1 hl).1, rfl⟩

/-- The parent of the first entry with that id. -/
def parent? (l : ParentList α) (id : α) : Option α :=
  (l.links.find? (·.1 == id)).bind (·.2)

/-- Replaces the parent of the first entry with that id; `none` when there is none. -/
def replaceParent? (id : α) (parent : Option α) :
    List (α × Option α) → Option (List (α × Option α))
  | [] => none
  | link :: links =>
    if link.1 = id then some ((id, parent) :: links)
    else (replaceParent? id parent links).map (link :: ·)

/-- Gives an entry another parent; `none` when it is not listed or would lie below itself. -/
def setParent? (l : ParentList α) (id : α) (parent : Option α) : Option (ParentList α) :=
  if parent.any fun p => l.hierarchy.wouldCycle id p then none
  else (replaceParent? id parent l.links).map (⟨·⟩)

end ParentList

end PageEditor
