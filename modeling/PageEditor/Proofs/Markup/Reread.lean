import Mathlib.Data.List.Forall2
import PageEditor.Proofs.Markup.Reprinted
import PageEditor.Proofs.Markup.Resaving
import PageEditor.Proofs.Tree.Places

/-!
# Elements that are read again

The element that is read where an element was written. It stands at the same place among the elements
of its parent, and what is known of it follows from what the tag and the text of the written element
are read as.
-/
set_option autoImplicit false

namespace PageEditor

namespace Node

/-- The element `m` is read, among these imports, where `n` was written. -/
def ReadsAs (imports : List Import) (n m : Node) : Prop :=
  ∃ p as held g, m = (ofMarkup imports g (.element p n.type as held)).1 ∧ n.isLeaf = false ∧
    n.ShowsTag as ∧ n.ShowsText held ∧ Mirrors held n.inner

variable {imports : List Import} {n m : Node} {ms : List Markup} {ns : List Node} {k : Nat}
  {ks : List Nat}

/-! ## Places -/

theorem elementsOf_cons_of_leaf (h : n.isLeaf = true) (ns : List Node) :
    elementsOf (n :: ns) = elementsOf ns :=
  List.filter_cons_of_neg (by simp [h])

theorem elementsOf_cons_of_element (h : n.isLeaf = false) (ns : List Node) :
    elementsOf (n :: ns) = n :: elementsOf ns :=
  List.filter_cons_of_pos (by simp [h])

theorem isLeaf_of_isText (h : n.isText = true) : n.isLeaf = true := by
  rw [isLeaf, h, Bool.true_or]

theorem isLeaf_of_isExpression (h : n.isExpression = true) : n.isLeaf = true := by
  rw [isLeaf, h, Bool.or_true]

theorem elements_inner (n : Node) : elementsOf n.inner = n.elements := by
  rw [inner, elements]
  cases n.text? with
  | none => rfl
  | some t => exact elementsOf_cons_of_leaf rfl n.children

theorem ReadsAs.type (h : n.ReadsAs imports m) : m.type = n.type := by
  obtain ⟨p, as, held, g, rfl, _⟩ := h
  exact type_ofMarkup_element ..

theorem ReadsAs.isLeaf (h : n.ReadsAs imports m) : m.isLeaf = false := by
  have htype := h.type
  obtain ⟨p, as, held, g, _, hleaf, _⟩ := h
  rw [isLeaf_congr htype, hleaf]

theorem elements_of_mirrors (imports : List Import) (h : Mirrors ms ns) : ∀ g : IdSource,
    List.Forall₂ (ReadsAs imports) (elementsOf ns) (elementsOf (allOfMarkup imports g ms).1) := by
  induction h with
  | nil => exact fun _ => .nil
  | text _ ih => exact fun g => ih g.next.2
  | run hn _ ih =>
    intro g
    rw [elementsOf_cons_of_leaf (isLeaf_of_isText hn)]
    exact ih g
  | quoted hn _ ih =>
    intro g
    rw [elementsOf_cons_of_leaf (isLeaf_of_isText hn)]
    exact ih g.next.2
  | expression hn _ _ ih =>
    intro g
    rw [elementsOf_cons_of_leaf (isLeaf_of_isExpression hn)]
    exact ih g.next.2
  | @element p as held n ms ns hleaf htag hown hheld _ _ ih =>
    intro g
    have hreads : n.ReadsAs imports (ofMarkup imports g (.element p n.type as held)).1 :=
      ⟨p, as, held, g, rfl, hleaf, htag, hown, hheld⟩
    rw [elementsOf_cons_of_element hleaf, allOfMarkup, elementsOf_cons_of_element hreads.isLeaf]
    exact .cons hreads (ih _)

theorem ReadsAs.of_getElem? {ms : List Node} (h : List.Forall₂ (ReadsAs imports) ns ms)
    (hk : ns[k]? = some n) : ∃ m, ms[k]? = some m ∧ n.ReadsAs imports m := by
  obtain ⟨hlt, rfl⟩ := List.getElem?_eq_some_iff.1 hk
  have hlt' : k < ms.length := h.length_eq ▸ hlt
  exact ⟨_, List.getElem?_eq_getElem hlt', h.get hlt hlt'⟩

/-- Below an element that is read again, the elements stand where they stood. -/
theorem ReadsAs.elementAt? (h : n.ReadsAs imports m) {n' : Node} (hn : n.elementAt? ks = some n') :
    ∃ m', m.elementAt? ks = some m' ∧ n'.ReadsAs imports m' := by
  induction ks generalizing n m with
  | nil =>
    cases hn
    exact ⟨m, rfl, h⟩
  | cons k ks ih =>
    obtain ⟨c, hc, hn'⟩ := elementAt?_cons.1 hn
    obtain ⟨p, as, held, g, rfl, _, _, _, hheld⟩ := h
    rw [← elements_inner] at hc
    obtain ⟨d, hd, hcd⟩ := ReadsAs.of_getElem? (elements_of_mirrors imports hheld g.next.2) hc
    obtain ⟨m', hm', hreads⟩ := ih hcd hn'
    refine ⟨m', elementAt?_cons.2 ⟨d, ?_, hm'⟩, hreads⟩
    rcases ofMarkup_element imports g p n.type as held with ⟨_, _, rfl, _⟩ | hm
    · cases hd
    · rw [hm]
      exact hd

/-! ## What is read -/

theorem ReadsAs.component (h : n.ReadsAs imports m) :
    m.component = ComponentInfo.ofTag? imports n.type := by
  obtain ⟨p, as, held, g, rfl, _⟩ := h
  rcases ofMarkup_element imports g p n.type as held with ⟨_, _, _, hm⟩ | hm <;> rw [hm] <;> rfl

/-- What the tag says is read from the attributes that it shows. -/
theorem ReadsAs.fields (h : n.ReadsAs imports m) :
    ∃ as, n.ShowsTag as ∧ { m.fields with text := none } = Fields.ofTag n.type as := by
  obtain ⟨p, as, held, g, rfl, _, htag, _⟩ := h
  have hnone : { Fields.ofTag n.type as with text := none } = Fields.ofTag n.type as := by
    rw [← Fields.ofTag_text n.type as]
  refine ⟨as, htag, ?_⟩
  rw [← hnone]
  rcases ofMarkup_element imports g p n.type as held with ⟨_, _, _, hm⟩ | hm <;> rw [hm] <;> rfl

/-- The text of an element without children is read as its text, or as one expression that quotes
it. -/
inductive Retains (n m : Node) (t : String) : Prop
  | run (htext : m.fields.text = some t) (hchildren : m.children = [])
      (h : Value.IsRun t ∨ n.textChanged = false)
  | quoted {c : Node} (htext : m.fields.text = none) (hchildren : m.children = [c])
      (hc : c.fields = { type := expressionType, text := some (String.ofList (Json.quote t.toList)) })
      (h : ¬Value.IsRun t)

theorem ReadsAs.retains (h : n.ReadsAs imports m) (hchildren : n.children = []) {t : String}
    (htext : n.fields.text = some t) (hne : t ≠ "") (htrim : Text.trim t.toList = t.toList) :
    n.Retains m t := by
  obtain ⟨p, as, held, g, rfl, _, _, hown, _⟩ := h
  cases hown hchildren t htext hne htrim with
  | run hheld h =>
    subst hheld
    exact .run rfl rfl h
  | quoted hheld h =>
    subst hheld
    exact .quoted (Fields.ofTag_text n.type as) rfl rfl h

end Node

/-! ## Pages -/

/-- The page `q` is read where the tree `t` was written: it has as many elements at the top, and every
element stands at its old place. -/
structure Page.Restores (q : Page) (t : Tree) : Prop where
  length : q.tree.root.elements.length = t.root.elements.length
  elementAt? : ∀ {k : Nat} {ks : List Nat} {n : Node}, t.root.elementAt? (k :: ks) = some n →
    ∃ m, q.tree.root.elementAt? (k :: ks) = some m ∧ n.ReadsAs q.imports m

theorem Page.Restores.getLast? {q : Page} {t : Tree} {n : Node} (h : q.Restores t)
    (hn : t.root.elements.getLast? = some n) :
    ∃ m, q.tree.root.elements.getLast? = some m ∧ n.ReadsAs q.imports m := by
  rw [List.getLast?_eq_getElem?] at hn
  have hplace : ∀ {n : Node} {k : Nat} {m : Node}, n.elementAt? [k] = some m ↔
      n.elements[k]? = some m := by
    intro n k m
    rw [Node.elementAt?_cons]
    exact ⟨fun ⟨_, hc, hm⟩ => by cases hm; exact hc, fun hc => ⟨m, hc, rfl⟩⟩
  obtain ⟨m, hm, hreads⟩ := h.elementAt? (hplace.2 hn)
  rw [List.getLast?_eq_getElem?, h.length]
  exact ⟨m, hplace.1 hm, hreads⟩

/-- Whatever has been done to a page, what is saved of it is read as a page in which every element
stands at its old place, among the imports of the page and those that were missing. -/
theorem Page.reread {source key : String} {p : Page} {t : Tree} (hp : Page.read source key = .ok p)
    (hremembers : p.tree.Remembers t) (ht : t.WellFormed) (hlegible : t.Legible source)
    (hne : t.root.children ≠ []) (key' : String) :
    ∃ q, Page.read (t.regenerate source) key' = .ok q ∧ q.Restores t ∧
      q.imports.map Import.names =
        (p.imports ++ Import.ofBlock (t.importBlock p.imports)).map Import.names := by
  obtain ⟨q, ms, hq, hchildren, hmirrors, himports⟩ :=
    Page.read_regenerate hp hremembers ht hlegible hne key'
  have hall := Node.elements_of_mirrors q.imports hmirrors (.ofKey key')
  rw [← hchildren] at hall
  refine ⟨q, hq, ⟨hall.length_eq.symm, fun hn => ?_⟩, himports⟩
  obtain ⟨c, hc, hbelow⟩ := Node.elementAt?_cons.1 hn
  obtain ⟨d, hd, hreads⟩ := Node.ReadsAs.of_getElem? hall hc
  obtain ⟨m, hm, hreads⟩ := hreads.elementAt? hbelow
  exact ⟨m, Node.elementAt?_cons.2 ⟨d, hd, hm⟩, hreads⟩

end PageEditor
