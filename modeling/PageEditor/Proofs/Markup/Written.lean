import PageEditor.Proofs.Markup.Kept
import PageEditor.Proofs.Markup.Taken
import PageEditor.Proofs.Tree.Nodes

/-!
# Written nodes

What a node is printed as from scratch, by what it is, and what is asked of it to be read again: of an
element that its fields were read and that the braces in its open tag close, and of an expression that
it ends with its own brace.
-/
set_option autoImplicit false

namespace PageEditor

open Cursor

/-- The text of an expression with the braces around it. -/
def Node.group (n : Node) : List Char := '\x7b' :: n.textChars ++ ['\x7d']

/-- What is asked of a node that is printed from scratch. -/
inductive Node.Printable (n : Node) : Prop
  | text (htype : n.type = textType)
  | expression (htype : n.type = expressionType) (hgroup : IsGroup n.group)
  | element (hread : n.fields.IsRead) (hcloses : n.fields.Closes)

instance (n : Node) : Decidable n.Printable :=
  decidable_of_iff (n.type = textType ∨ (n.type = expressionType ∧ IsGroup n.group) ∨
      n.fields.IsRead ∧ n.fields.Closes)
    ⟨fun h => h.elim .text fun h => h.elim (fun h => .expression h.1 h.2) fun h => .element h.1 h.2,
      fun h => by
        cases h with
        | text h => exact .inl h
        | expression h h' => exact .inr (.inl ⟨h, h'⟩)
        | element h h' => exact .inr (.inr ⟨h, h'⟩)⟩

/-! ## Blanks -/

theorem isPlain_indentation (depth : Nat) : IsPlain (indentation defaultIndent depth) := by
  intro x hx
  obtain ⟨l, hl, hxl⟩ := List.mem_flatten.1 hx
  rw [List.eq_of_mem_replicate hl] at hxl
  have hdefault : IsPlain defaultIndent := isPlain_of_all (by decide)
  exact hdefault x hxl

theorem isPlain_lineFeed : IsPlain ['\n'] := isPlain_of_all (by decide)

/-! ## Nodes -/

theorem ne_rootType_of_isName {name : String} (h : Token.IsName name.toList) : name ≠ rootType := by
  obtain ⟨c, r, hname, hc, _⟩ := h
  rintro rfl
  cases hname
  exact absurd hc (by decide)

namespace Node

theorem markup_text {n : Node} (htype : n.type = textType) (indent : List Char) (depth : Nat) :
    n.markup indent depth = Value.escapeText (n.fields.text.getD "") := by
  have hroot : textType ≠ rootType := by decide
  obtain ⟨id, fields, component, origin, children⟩ := n
  simp only [type] at htype
  rw [markup.eq_def]
  simp only [htype, if_neg hroot, if_true]

theorem markup_expression {n : Node} (htype : n.type = expressionType) (indent : List Char)
    (depth : Nat) : n.markup indent depth = n.group := by
  have hroot : expressionType ≠ rootType := by decide
  have htext : expressionType ≠ textType := by decide
  obtain ⟨id, fields, component, origin, children⟩ := n
  simp only [type] at htype
  rw [markup.eq_def]
  simp only [htype, if_neg hroot, if_neg htext, if_true, group]

/-- What is neither the root nor a leaf is written as an element. -/
theorem markup_element {n : Node} (hroot : n.type ≠ rootType) (hleaf : n.isLeaf = false)
    (indent : List Char) (depth : Nat) :
    n.markup indent depth =
      match n.children, n.text? with
      | [], none => n.fields.openTag true
      | [], some t => n.fields.openTag false ++ Value.escapeText t ++ n.fields.closeTag
      | _ :: _, _ => n.fields.openTag false ++ n.contentMarkup indent depth ++ n.fields.closeTag := by
  obtain ⟨id, fields, component, origin, children⟩ := n
  simp only [isLeaf, isText, isExpression, type, Bool.or_eq_false_iff, beq_eq_false_iff_ne]
    at hroot hleaf
  rw [markup.eq_def]
  simp only [if_neg hroot, if_neg hleaf.1, if_neg hleaf.2]
  split
  · simp only [*]
  · simp only [*]
  · simp only [contentMarkup, List.append_assoc]

theorem markup_branch {n : Node} (hroot : n.type ≠ rootType) (hleaf : n.isLeaf = false)
    (hchildren : n.children ≠ []) (indent : List Char) (depth : Nat) :
    n.markup indent depth =
      n.fields.openTag false ++ n.contentMarkup indent depth ++ n.fields.closeTag := by
  obtain ⟨c, cs, hcons⟩ := List.exists_cons_of_ne_nil hchildren
  rw [markup_element hroot hleaf, hcons]

theorem head_markup {n : Node} (hroot : n.type ≠ rootType) (hleaf : n.isLeaf = false)
    (indent : List Char) (depth : Nat) : ∃ r, n.markup indent depth = '<' :: r := by
  rw [markup_element hroot hleaf]
  split
  all_goals exact ⟨_, rfl⟩

section Element

variable {n : Node} (hname : Token.IsName n.type.toList) (indent : List Char) (depth : Nat)

include hname

theorem markup_closed (hchildren : n.children = []) (htext : n.text? = none) :
    n.markup indent depth = n.fields.openTag true := by
  rw [markup_element (ne_rootType_of_isName hname) (isLeaf_of_isName hname), hchildren, htext]

theorem markup_own {t : String} (hchildren : n.children = []) (htext : n.text? = some t) :
    n.markup indent depth =
      n.fields.openTag false ++ Value.escapeText t ++ n.fields.closeTag := by
  rw [markup_element (ne_rootType_of_isName hname) (isLeaf_of_isName hname), hchildren, htext]

theorem markup_held (hchildren : n.children ≠ []) :
    n.markup indent depth =
      n.fields.openTag false ++ n.contentMarkup indent depth ++ n.fields.closeTag :=
  markup_branch (ne_rootType_of_isName hname) (isLeaf_of_isName hname) hchildren indent depth

end Element

end Node

end PageEditor
