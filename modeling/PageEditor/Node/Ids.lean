import PageEditor.Digest.Crc32

/-!
# Ids

A source of ids counts up: its ids are its seed, a dash and the count. `fresh` skips the ids that
are taken. It ends since every id that it skips is struck off the list of taken ones.
-/
set_option autoImplicit false

namespace PageEditor

structure IdSource where
  seed : String
  count : Nat := 0
  deriving DecidableEq, Repr

namespace IdSource

/-- The check of a key as a short seed. -/
def seedOf (key : String) : String :=
  Digest.hexText (Digest.crc32 key.toUTF8.toList).toNat

def ofKey (key : String) : IdSource := ⟨seedOf key, 0⟩

/-- The id of a count. -/
def id (seed : String) (count : Nat) : String := seed ++ "-" ++ toString count

/-- The next id, and the source behind it. -/
def next (g : IdSource) : String × IdSource :=
  (id g.seed (g.count + 1), ⟨g.seed, g.count + 1⟩)

/-- The next id that is not taken, and the source behind it. -/
def fresh (g : IdSource) (taken : List String) : String × IdSource :=
  if g.next.1 ∈ taken then g.next.2.fresh (taken.erase g.next.1) else g.next
termination_by taken.length
decreasing_by
  rename_i h
  have := List.length_erase_of_mem h
  have := List.length_pos_of_mem h
  omega

end IdSource

end PageEditor
