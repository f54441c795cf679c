import PageEditor.Component.Plan
import PageEditor.Proofs.Markup.Kept

/-!
# Plans of elements

An element's plan is a frame, which comes from its tag, around the plans of what it holds. What is
shown of it is the frame around what is shown of these; the element's own text is shown in front of
them, whether it is a field of the element or held by it.
-/
set_option autoImplicit false

namespace PageEditor

/-! ## Making components -/

theorem Descriptor.instantiate_eq (d : Descriptor) (p : Props) (vs : List VNode) :
    d.instantiate p vs = d.instantiate { p with text := none } (p.textNodes ++ vs) := by
  unfold instantiate
  cases d.construction with
  | icon => rfl
  | primitive => rfl
  | fragment => rfl

namespace Plan

/-! ## Leaves -/

/-- The plan of a run of text or an expression. -/
def ofLeaf (n : Node) : Plan :=
  if n.type = textType then text (n.fields.text.getD "")
  else if Text.trim (n.fields.text.getD "").toList = slotName.toList then slot
  else expression (n.fields.text.getD "")

variable {env : Environment}

theorem ofNode_of_isLeaf {n : Node} (h : n.isLeaf = true) : ofNode env n = .ok (ofLeaf n) := by
  obtain ⟨id, fields, component, origin, children⟩ := n
  simp only [Node.isLeaf, Node.isText, Node.isExpression, Node.type, Bool.or_eq_true,
    beq_iff_eq] at h
  rw [ofNode, ofLeaf]
  simp only [Node.type]
  split
  · rfl
  · rename_i htext
    rw [if_pos (h.resolve_left htext)]

theorem ofNodes_of_isLeaf {ns : List Node} (h : ∀ n ∈ ns, n.isLeaf = true) :
    ofNodes env ns = .ok (ns.map ofLeaf) := by
  induction ns with
  | nil => rw [ofNodes, List.map_nil]
  | cons n ns ih =>
    rw [ofNodes, ofNode_of_isLeaf (h n List.mem_cons_self),
      ih fun m hm => h m (List.mem_cons_of_mem n hm)]
    rfl

theorem ofLeaf_congr {n m : Node} (h : n.fields = m.fields) : ofLeaf n = ofLeaf m := by
  rw [ofLeaf, ofLeaf, Node.type, Node.type, h]

/-! ## Running plans -/

theorem runAll_nil (id : String) (vs : List VNode) : runAll id vs [] = ([], vs) := by
  rw [runAll]

theorem runAll_slot (id : String) (vs : List VNode) : (runAll id vs [slot]).1 = vs := by
  rw [runAll, runAll_nil]
  exact List.append_nil vs

theorem runAll_text (id : String) (vs : List VNode) (s : String) (ps : List Plan) :
    (runAll id vs (text s :: ps)).1 = .text s :: (runAll id vs ps).1 := by
  rw [runAll]
  · rfl
  · exact Plan.noConfusion

theorem runAll_expression (id : String) (vs : List VNode) (e : String) (ps : List Plan) :
    (runAll id vs (expression e :: ps)).1 = shown e :: (runAll id vs ps).1 := by
  rw [runAll]
  · rfl
  · exact Plan.noConfusion

/-! ## Frames -/

/-- The plan of an element around the plans of what it holds. -/
def around (env : Environment) (n : Node) (plans : List Plan) : Except CompileError Plan :=
  match n.component? with
  | some c => (env.resolve c).map fun d => component d (.ofNode n) plans
  | none =>
    if isHtmlTag n.type then
      .ok (primitive n.type { Props.ofNode n with style := .ofList (literalEntries n.fields.style) }
        ((n.text?.map text).toList ++ plans))
    else .error (.unknownTag n.type)

theorem ofNode_eq_around {n : Node} {plans : List Plan} (hname : Token.IsName n.type.toList)
    (h : ofNodes env n.children = .ok plans) : ofNode env n = around env n plans := by
  obtain ⟨htext, hexpression⟩ := ne_textType_of_isName hname
  obtain ⟨id, fields, info, origin, children⟩ := n
  simp only [Node.type] at htext hexpression
  rw [ofNode, around]
  simp only [if_neg htext, if_neg hexpression, h, Node.type]
  cases hinfo : (⟨id, fields, info, origin, children⟩ : Node).component? with
  | none => rfl
  | some c => cases henv : env.resolve c <;> simp only [henv, Except.map]

/-- Agreement in what the frame of an element is made from. -/
structure SameFrame (n m : Node) : Prop where
  type : n.type = m.type
  className : n.fields.className = m.fields.className
  style : n.fields.style = m.fields.style
  attributes : n.fields.attributes = m.fields.attributes
  component : n.component = m.component

theorem SameFrame.symm {n m : Node} (h : SameFrame n m) : SameFrame m n :=
  ⟨h.type.symm, h.className.symm, h.style.symm, h.attributes.symm, h.component.symm⟩

theorem SameFrame.trans {n m k : Node} (h : SameFrame n m) (h' : SameFrame m k) : SameFrame n k :=
  ⟨h.type.trans h'.type, h.className.trans h'.className, h.style.trans h'.style,
    h.attributes.trans h'.attributes, h.component.trans h'.component⟩

/-- What is shown inside the frame: the own text and what is shown of the plans. -/
def inner (n : Node) (plans : List Plan) (id : String) (vs : List VNode) : List VNode :=
  (Props.ofNode n).textNodes ++ (runAll id vs plans).1

theorem execute_component (d : Descriptor) (n : Node) (plans : List Plan) (id : String)
    (vs : List VNode) :
    (component d (.ofNode n) plans).execute id vs =
      d.instantiate { Props.ofNode n with nodeId := id, text := none } (inner n plans id vs) := by
  rw [execute, run, Descriptor.instantiate_eq]
  rfl

theorem runAll_ownText (n : Node) (plans : List Plan) (id : String) (vs : List VNode) :
    (runAll id vs ((n.text?.map text).toList ++ plans)).1 = inner n plans id vs := by
  unfold inner Node.text? Props.textNodes
  show _ = ((n.fields.text.filter (· != "")).map VNode.text).toList ++ _
  cases n.fields.text.filter (· != "") with
  | none => rfl
  | some t => exact runAll_text id vs t plans

/-- Whether what is shown inside the frame is dropped. -/
def IsIcon : Plan → Prop
  | component d _ _ => d.construction = .icon
  | _ => False

theorem instantiate_eq_iff (d : Descriptor) (p : Props) (vs ws : List VNode) :
    d.instantiate { p with text := none } vs = d.instantiate { p with text := none } ws ↔
      d.construction = .icon ∨ vs = ws := by
  unfold Descriptor.instantiate
  cases d.construction with
  | icon => simp
  | primitive => simp [Descriptor.elementWith, Props.textNodes]
  | fragment => simp [Props.textNodes]

/-- Elements with one frame are shown alike just when they are shown alike inside, or when the frame
is that of an icon. -/
theorem around_congr {n m : Node} {plans : List Plan} {p : Plan} (h : SameFrame n m)
    (hp : around env n plans = .ok p) (plans' : List Plan) : ∃ p', around env m plans' = .ok p' ∧
      ∀ id vs vs', p.execute id vs = p'.execute id vs' ↔
        p.IsIcon ∨ inner n plans id vs = inner m plans' id vs' := by
  have hcomponent : n.component? = m.component? := by
    rw [Node.component?, Node.component?, h.component]
  have hprops : ∀ id, ({ Props.ofNode n with nodeId := id, text := none } : Props) =
      { Props.ofNode m with nodeId := id, text := none } := by
    intro id
    simp only [Props.ofNode, h.className, h.style, h.attributes]
  rw [around, hcomponent] at hp
  rw [around]
  cases hm : m.component? with
  | some c =>
    rw [hm] at hp
    simp only at hp ⊢
    cases hd : env.resolve c with
    | error e =>
      rw [hd] at hp
      cases hp
    | ok d =>
      rw [hd] at hp
      cases hp
      refine ⟨_, rfl, fun id vs vs' => ?_⟩
      rw [execute_component, execute_component, hprops]
      exact instantiate_eq_iff d { Props.ofNode m with nodeId := id } _ _
  | none =>
    rw [hm] at hp
    simp only [h.type] at hp ⊢
    split at hp
    · rename_i htag
      rw [if_pos htag]
      cases hp
      refine ⟨_, rfl, fun id vs vs' => ?_⟩
      simp only [execute, run, Props.ofNode, runAll_ownText, h.className, h.style, h.attributes,
        IsIcon, false_or, VNode.element.injEq, true_and, and_true]
      exact and_iff_right rfl
    · cases hp

end Plan

end PageEditor
