import PageEditor.Proofs.Text.Cuts

/-!
# Replacing spans of a text

A text in which some spans, one behind the other, have got new text, and all else is what it was.
-/
set_option autoImplicit false

namespace PageEditor

/-- A span and the text that comes in its place. -/
structure Replacement where
  span : Span
  text : List Char

/-- A region of the text in which each span, none of them before the end of the one in front of it,
is replaced by its text and every other character is kept. -/
def Replaces (source : List Char) : Span → List Replacement → List Char → Prop
  | region, [], out => Text.slice source region = some out
  | region, r :: rs, out =>
    ∃ gap old back, Text.slice source ⟨region.start, r.span.start⟩ = some gap ∧
      Text.slice source r.span = some old ∧ Replaces source ⟨r.span.stop, region.stop⟩ rs back ∧
      out = gap ++ r.text ++ back

namespace Replaces

variable {source x y old : List Char} {a b c : Nat} {rs rs' : List Replacement}

theorem whole {s : Span} (h : Text.slice source s = some old) (text : List Char) :
    Replaces source s [⟨s, text⟩] text :=
  ⟨[], old, [], Text.slice_start h, h, Text.slice_stop h, (List.append_nil _).symm⟩

theorem slice_append (hx : Text.slice source ⟨a, b⟩ = some x) (h : Replaces source ⟨b, c⟩ rs y) :
    Replaces source ⟨a, c⟩ rs (x ++ y) := by
  cases rs with
  | nil => exact Text.slice_join hx h
  | cons r rs =>
    obtain ⟨gap, old, back, hgap, hold, hback, rfl⟩ := h
    refine ⟨x ++ gap, old, back, Text.slice_join hx hgap, hold, hback, ?_⟩
    simp only [List.append_assoc]

theorem append (h : Replaces source ⟨a, b⟩ rs x) (h' : Replaces source ⟨b, c⟩ rs' y) :
    Replaces source ⟨a, c⟩ (rs ++ rs') (x ++ y) := by
  induction rs generalizing a x with
  | nil => exact slice_append h h'
  | cons r rs ih =>
    obtain ⟨gap, old, back, hgap, hold, hback, rfl⟩ := h
    refine ⟨gap, old, back ++ y, hgap, hold, ih hback, ?_⟩
    simp only [List.append_assoc]

theorem append_slice (h : Replaces source ⟨a, b⟩ rs x) (hy : Text.slice source ⟨b, c⟩ = some y) :
    Replaces source ⟨a, c⟩ rs (x ++ y) := by
  have hall : Replaces source ⟨a, c⟩ (rs ++ []) (x ++ y) := h.append hy
  rwa [List.append_nil] at hall

end Replaces

end PageEditor
