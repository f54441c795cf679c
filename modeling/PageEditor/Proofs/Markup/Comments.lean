import PageEditor.Proofs.Markup.RoundTrip
import PageEditor.Proofs.Markup.Styles

/-!
# Comments between tags

A comment between tags is an expression in braces, and its end is looked for as that of any other
one: quotes and braces count inside of it. A group is a pair of braces around a balanced text, one
whose quotes and braces come in pairs. So the comments of an element become its children, one
expression for each, just if what they say is balanced.
-/
set_option autoImplicit false

namespace PageEditor

open Cursor

/-! ## Balanced texts -/

/-- A text whose quotes and braces come in pairs; between two quotes braces do not count. -/
inductive IsBalanced : List Char → Prop
  | nil : IsBalanced []
  | plain {c : Char} {cs : List Char} (hfree : isBraceFree c = true) (hmore : IsBalanced cs) :
      IsBalanced (c :: cs)
  | quotes {q : Char} {body cs : List Char} (hquote : isQuote q = true) (hbody : IsQuoted q body)
      (hmore : IsBalanced cs) : IsBalanced (q :: (body ++ q :: cs))
  | braces {inner cs : List Char} (hinner : IsBalanced inner) (hmore : IsBalanced cs) :
      IsBalanced ('\x7b' :: (inner ++ '\x7d' :: cs))

theorem isQuote_ne_slash {q : Char} (h : isQuote q = true) : q ≠ '\\' := by
  rintro rfl
  cases h

theorem IsBalanced.bracedSize {cs : List Char} (h : IsBalanced cs) :
    ∀ (depth : Nat) (rest : List Char), bracedSize (depth + 1) .outside (cs ++ rest) =
      (bracedSize (depth + 1) .outside rest).map (· + cs.length) := by
  induction h with
  | nil => simp
  | plain hfree _ ih =>
    intro depth rest
    rw [List.cons_append, bracedSize_outside hfree, ih, Option.map_map]
    rfl
  | @quotes q body cs hquote hbody _ ih =>
    intro depth rest
    have hsplit : q :: (body ++ q :: cs) ++ rest = q :: (body ++ q :: (cs ++ rest)) := by simp
    rw [hsplit, PageEditor.bracedSize, if_pos hquote,
      bracedSize_quoted hbody (isQuote_ne_slash hquote), ih, Option.map_map, Option.map_map]
    congr 1
    funext n
    simp only [Function.comp, List.length_cons, List.length_append]
    omega
  | @braces inner cs _ _ ihinner ih =>
    intro depth rest
    have hsplit : '\x7b' :: (inner ++ '\x7d' :: cs) ++ rest =
        '\x7b' :: (inner ++ '\x7d' :: (cs ++ rest)) := by simp
    rw [hsplit, PageEditor.bracedSize, if_neg (by decide), if_pos rfl, ihinner,
      PageEditor.bracedSize, if_neg (by decide), if_neg (by decide), if_pos rfl,
      if_neg (by omega), Nat.add_sub_cancel, ih, Option.map_map, Option.map_map, Option.map_map]
    congr 1
    funext n
    simp only [Function.comp, List.length_cons, List.length_append]
    omega

/-- A text with `depth` braces that close what was opened in front of it, the last one at its end;
what stands between them is balanced. -/
def ClosesBraces : Nat → List Char → Prop
  | 0, cs => cs = []
  | depth + 1, cs => ∃ inner rest, cs = inner ++ '\x7d' :: rest ∧ IsBalanced inner ∧
      ClosesBraces depth rest

/-- What the reader of braces has in front of it when it stops at the end of the text. -/
def BraceState.Closes (depth : Nat) : BraceState → List Char → Prop
  | .outside, cs => ClosesBraces depth cs
  | .quoted q, cs => ∃ body rest, cs = body ++ q :: rest ∧ IsQuoted q body ∧ ClosesBraces depth rest
  | .escaped q, cs => ∃ c body rest, cs = c :: (body ++ q :: rest) ∧ IsQuoted q body ∧
      ClosesBraces depth rest

/-- Pairs in front of the first closing brace belong to what is balanced there. -/
theorem ClosesBraces.behind {depth : Nat} {cs : List Char} (h : ClosesBraces (depth + 1) cs)
    (front : List Char) (hfront : ∀ inner, IsBalanced inner → IsBalanced (front ++ inner)) :
    ClosesBraces (depth + 1) (front ++ cs) := by
  obtain ⟨inner, rest, rfl, hinner, hrest⟩ := h
  exact ⟨front ++ inner, rest, by simp, hfront inner hinner, hrest⟩

/-- By induction on the text, for every state of the reader and every number of open braces. -/
theorem closes_of_bracedSize : ∀ (cs : List Char) (depth : Nat) (state : BraceState),
    bracedSize (depth + 1) state cs = some cs.length → state.Closes (depth + 1) cs := by
  intro cs
  induction cs with
  | nil =>
    intro depth state h
    cases state <;> cases h
  | cons c cs ih =>
    intro depth state h
    have hmore : ∀ {d : Nat} {s : BraceState}, (bracedSize (d + 1) s cs).map (· + 1) =
        some (c :: cs).length → s.Closes (d + 1) cs := by
      intro d s hs
      obtain ⟨n, hn, hlength⟩ := Option.map_eq_some_iff.1 hs
      exact ih d s (by rw [hn, Nat.succ.inj hlength])
    cases state with
    | escaped q =>
      obtain ⟨body, rest, rfl, hbody, hrest⟩ := hmore h
      exact ⟨c, body, rest, rfl, hbody, hrest⟩
    | quoted q =>
      rw [bracedSize] at h
      split at h
      · rename_i hslash
        subst hslash
        obtain ⟨d, body, rest, rfl, hbody, hrest⟩ := hmore h
        exact ⟨'\\' :: d :: body, rest, rfl, .pair hbody, hrest⟩
      · split at h
        · rename_i hq
          subst hq
          exact ⟨[], cs, rfl, .nil, hmore h⟩
        · rename_i hslash hq
          obtain ⟨body, rest, rfl, hbody, hrest⟩ := hmore h
          exact ⟨c :: body, rest, rfl, .plain hq hslash hbody, hrest⟩
    | outside =>
      rw [bracedSize] at h
      split at h
      · rename_i hquote
        obtain ⟨body, rest, rfl, hbody, hrest⟩ := hmore h
        have hfront := hrest.behind (c :: body ++ [c]) fun inner hinner => by
          simpa using IsBalanced.quotes hquote hbody hinner
        simpa [BraceState.Closes] using hfront
      · split at h
        · rename_i hopen
          subst hopen
          obtain ⟨inner, rest, rfl, hinner, hrest⟩ := hmore h
          have hfront := hrest.behind ('\x7b' :: inner ++ ['\x7d']) fun inner' hinner' => by
            simpa using IsBalanced.braces hinner hinner'
          simpa [BraceState.Closes] using hfront
        · split at h
          · rename_i hclose
            subst hclose
            refine ⟨[], cs, rfl, .nil, ?_⟩
            split at h
            · rename_i hdepth
              obtain rfl : depth = 0 := by omega
              exact List.eq_nil_of_length_eq_zero (by simpa using h.symm)
            · rename_i hdepth
              obtain ⟨d, rfl⟩ : ∃ d, depth = d + 1 := ⟨depth - 1, by omega⟩
              exact hmore h
          · rename_i hquote hopen hclose
            exact (hmore h).behind [c] fun inner hinner =>
              .plain (by simp [isBraceFree, hquote, hopen, hclose]) hinner

/-- A group is a pair of braces around a balanced text. -/
theorem isGroup_iff {cs : List Char} :
    IsGroup cs ↔ ∃ inner, cs = '\x7b' :: (inner ++ ['\x7d']) ∧ IsBalanced inner := by
  have hopen : ∀ r, bracedSize 0 .outside ('\x7b' :: r) = (bracedSize 1 .outside r).map (· + 1) := by
    intro r
    rw [bracedSize, if_neg (by decide), if_pos rfl]
  constructor
  · rintro ⟨hhead, hsize⟩
    cases cs with
    | nil => cases hhead
    | cons x r =>
      obtain rfl : x = '\x7b' := Option.some.inj hhead
      rw [hopen] at hsize
      obtain ⟨n, hn, hlength⟩ := Option.map_eq_some_iff.1 hsize
      obtain ⟨inner, rest, rfl, hinner, hrest⟩ : ClosesBraces 1 r :=
        closes_of_bracedSize r 0 .outside (by rw [hn, Nat.succ.inj hlength])
      obtain rfl : rest = [] := hrest
      exact ⟨inner, rfl, hinner⟩
  · rintro ⟨inner, rfl, hinner⟩
    refine ⟨rfl, ?_⟩
    rw [hopen, hinner.bracedSize]
    simp [bracedSize, isQuote, Nat.add_comm]

theorem isGroup_braced {inner : List Char} :
    IsGroup ('\x7b' :: (inner ++ ['\x7d'])) ↔ IsBalanced inner := by
  rw [isGroup_iff]
  constructor
  · rintro ⟨inner', heq, hinner⟩
    rwa [List.append_cancel_right (List.cons.inj heq).2]
  · exact fun hinner => ⟨inner, rfl, hinner⟩

instance (cs : List Char) : Decidable (IsBalanced cs) := decidable_of_iff _ isGroup_braced

theorem IsBalanced.append {a b : List Char} (ha : IsBalanced a) (hb : IsBalanced b) :
    IsBalanced (a ++ b) := by
  induction ha with
  | nil => exact hb
  | plain hfree _ ih => exact .plain hfree ih
  | quotes hquote hbody _ ih => simpa using IsBalanced.quotes hquote hbody ih
  | braces hinner _ _ ih => simpa using IsBalanced.braces hinner ih

theorem isBalanced_cons {c : Char} {cs : List Char} (hfree : isBraceFree c = true) :
    IsBalanced (c :: cs) ↔ IsBalanced cs := by
  refine ⟨fun h => ?_, .plain hfree⟩
  cases h with
  | plain _ hmore => exact hmore
  | quotes hquote => simp [isBraceFree, hquote] at hfree
  | braces => cases hfree

theorem exists_concat {c d : Char} {cs more : List Char} (hne : d ≠ c) (front : List Char)
    (h : cs ++ [c] = front ++ d :: more) :
    ∃ more', more = more' ++ [c] ∧ cs = front ++ d :: more' := by
  rcases List.eq_nil_or_concat more with rfl | ⟨more', e, rfl⟩
  · exact absurd (List.cons.inj (List.append_inj' h rfl).2).1.symm hne
  · have hsplit : cs ++ [c] = (front ++ d :: more') ++ [e] := by simpa using h
    obtain ⟨hfront, hlast⟩ := List.append_inj' hsplit rfl
    obtain rfl := (List.cons.inj hlast).1
    exact ⟨more', by simp, hfront⟩

theorem IsBalanced.of_concat {c : Char} {cs : List Char} (hfree : isBraceFree c = true)
    (h : IsBalanced (cs ++ [c])) : IsBalanced cs := by
  generalize hwhole : cs ++ [c] = whole at h
  induction h generalizing cs with
  | nil => simp at hwhole
  | plain hfirst _ ih =>
    cases cs with
    | nil => exact .nil
    | cons d ds =>
      obtain ⟨rfl, hrest⟩ := List.cons.inj hwhole
      exact .plain hfirst (ih hrest)
  | @quotes q body more hquote hbody _ ih =>
    have hne : q ≠ c := by
      rintro rfl
      simp [isBraceFree, hquote] at hfree
    obtain ⟨more', hmore, rfl⟩ := exists_concat hne (q :: body) hwhole
    exact .quotes hquote hbody (ih hmore.symm)
  | @braces inner more hinner _ _ ih =>
    have hne : '\x7d' ≠ c := by
      rintro rfl
      cases hfree
    obtain ⟨more', hmore, rfl⟩ := exists_concat hne ('\x7b' :: inner) hwhole
    exact .braces hinner (ih hmore.symm)

/-! ## Comments -/

/-- What a comment holds between its braces. -/
def commentText (body : String) : String := "/*" ++ body ++ "*/"

/-- A comment between tags. -/
def comment (body : String) : List Char := '\x7b' :: ((commentText body).toList ++ ['\x7d'])

/-- Comments on lines of their own, each of them behind blanks. -/
def commentLines : List (List Char × String) → List Char
  | [] => []
  | (indent, body) :: more => '\n' :: indent ++ comment body ++ commentLines more

/-- The node that a comment should become. -/
def commentNode (body : String) : Node :=
  { id := "", fields := { type := expressionType, text := some (commentText body) } }

theorem group_commentNode (body : String) : (commentNode body).group = comment body := rfl

theorem isBalanced_commentText {body : String} :
    IsBalanced (commentText body).toList ↔ IsBalanced body.toList := by
  have htext : (commentText body).toList = '/' :: '*' :: (body.toList ++ ['*', '/']) := by
    simp [commentText]
  have hmark : IsBalanced ['*', '/'] := .plain (by decide) (.plain (by decide) .nil)
  rw [htext, isBalanced_cons (by decide), isBalanced_cons (by decide)]
  refine ⟨fun h => ?_, fun h => h.append hmark⟩
  have hsplit : body.toList ++ ['*', '/'] = (body.toList ++ ['*']) ++ ['/'] := by simp
  rw [hsplit] at h
  exact (h.of_concat (by decide)).of_concat (by decide)

theorem isGroup_comment {body : String} : IsGroup (comment body) ↔ IsBalanced body.toList :=
  isGroup_braced.trans isBalanced_commentText

/-! ## Lines of comments -/

theorem Cursor.Reads.of_brace {c stop : Cursor} {ms : List Markup} {r : List Char}
    (hr : c.skipText.rest = '\x7b' :: r) (h : Reads c ms stop) :
    ∃ after more, c.skipText.braced = .ok after ∧ Reads after more stop ∧
      ms = c.textRuns ++ c.skipText.expression after :: more := by
  cases h with
  | stop hr' => cases hr.symm.trans hr'
  | closed hr' => cases hr.symm.trans hr'
  | element hr' => cases hr.symm.trans hr'
  | expression _ hbraced hmore => exact ⟨_, _, hbraced, hmore, rfl⟩

section Lines

variable {lines : List (List Char × String)} {back rest : List Char}
  (hindent : ∀ l ∈ lines, IsBlank l.1)

include hindent

theorem holds_commentLines (hback : IsBlank back) (hbalanced : ∀ l ∈ lines, IsBalanced l.2.toList) :
    Holds (lines.map fun l => commentNode l.2) (commentLines lines ++ '\n' :: back) := by
  induction lines with
  | nil =>
    have hblank : IsBlank ('\n' :: back) := joins_isBlank.append (a := ['\n']) (by decide) hback
    have hholds := holds_plain hblank.isPlain
    rwa [Node.ofRun_blank hblank] at hholds
  | cons l more ih =>
    obtain ⟨indent, body⟩ := l
    rw [List.forall_mem_cons] at hindent hbalanced
    have hblank : IsBlank ('\n' :: indent) := joins_isBlank.append (a := ['\n']) (by decide) hindent.1
    have hgroup : IsGroup (commentNode body).group := isGroup_comment.2 hbalanced.1
    have hholds := holds_expression hblank.isPlain hgroup rfl rfl (ih hindent.2 hbalanced.2)
    rw [Node.ofRun_blank hblank, group_commentNode] at hholds
    simpa [commentLines] using hholds

theorem balanced_of_reads {c stop : Cursor} {ms : List Markup} {imports : List Import} {g : IdSource}
    (hc : c.rest = commentLines lines ++ rest) (hreads : Reads c ms stop)
    (hnodes : Node.bareAll (Node.allOfMarkup imports g ms).1 = lines.map fun l => commentNode l.2) :
    ∀ l ∈ lines, IsBalanced l.2.toList := by
  induction lines generalizing c ms g with
  | nil => exact List.forall_mem_nil _
  | cons l more ih =>
    obtain ⟨indent, body⟩ := l
    rw [List.forall_mem_cons] at hindent
    have hblank : IsBlank ('\n' :: indent) := joins_isBlank.append (a := ['\n']) (by decide) hindent.1
    have hsplit : c.rest = '\n' :: indent ++ (comment body ++ (commentLines more ++ rest)) := by
      rw [hc, commentLines]
      simp only [List.append_assoc]
    have hskip := skipText_of_plain hblank.isPlain (by rintro _ ⟨⟩; rfl) hsplit
    have hrest : c.skipText.rest = comment body ++ (commentLines more ++ rest) := by
      rw [hskip, advance_rest_append hsplit]
    obtain ⟨after, ms', hbraced, hmore, rfl⟩ := hreads.of_brace hrest
    have hruns : c.textRuns = [] := textRuns_of_blank (by
      rw [hskip, upTo_advance_append hsplit]
      exact hblank)
    obtain ⟨inner, hinner, hbalanced⟩ := isGroup_iff.1 (isGroup_of_braced hrest hbraced)
    rw [hruns, List.nil_append, allOfMarkup_cons, Node.bareAll, List.map_cons] at hnodes
    obtain ⟨hnode, hnodes⟩ := List.cons.inj hnodes
    have htext : String.ofList inner = commentText body := by
      have hfields := congrArg (·.fields.text) hnode
      rw [Node.bare_eq, Cursor.expression, hinner, List.tail_cons, List.dropLast_concat] at hfields
      exact Option.some.inj hfields
    have hafter : after.rest = commentLines more ++ rest := by
      have hwhole := (leads_of_braced hbraced).rest
      rw [hinner, hrest, comment, ← htext, String.toList_ofList] at hwhole
      exact List.append_cancel_left hwhole
    rw [List.forall_mem_cons]
    exact ⟨isBalanced_commentText.1 (by rwa [← htext, String.toList_ofList]),
      ih hindent.2 hafter hmore hnodes⟩

theorem balanced_of_children {inner stop : Cursor} {held : List Markup} {imports : List Import}
    {g : IdSource} {place : Place} {name : String} {as : List Attribute}
    (hinner : inner.rest = commentLines lines ++ rest) (hheld : Reads inner held stop)
    (hchildren : Node.bareAll (Node.ofMarkup imports g (.element place name as held)).1.children =
      lines.map fun l => commentNode l.2) :
    ∀ l ∈ lines, IsBalanced l.2.toList := by
  rcases ofMarkup_element imports g place name as held with ⟨_, _, _, hn⟩ | hn
  · -- where a text alone stands there are no children
    rw [hn] at hchildren
    obtain rfl : lines = [] := List.map_eq_nil_iff.1 hchildren.symm
    exact List.forall_mem_nil _
  · rw [hn] at hchildren
    exact balanced_of_reads hindent hinner hheld hchildren

end Lines

/-! ## Elements that hold comments -/

/-- The text is a page with one element, which has these fields and just these comments as its
children. -/
def HoldsComments (source : List Char) (key : String) (fields : Fields) (bodies : List String) :
    Prop :=
  ∃ p n, Page.read (String.ofList source) key = .ok p ∧ p.tree.root.children = [n] ∧
    n.fields = fields ∧ Node.bareAll n.children = bodies.map commentNode

section Elements

variable {name : String} {as : List Attribute} {tag close back : List Char}
  {lines : List (List Char × String)}

theorem isElementOf_commented (htag : IsOpenTag ⟨name, as, false⟩ tag)
    (hclose : IsCloseTag name close) (hindent : ∀ l ∈ lines, IsBlank l.1) (hback : IsBlank back)
    (hbalanced : ∀ l ∈ lines, IsBalanced l.2.toList) :
    IsElementOf { id := "", fields := Fields.ofTag name as
                  children := lines.map fun l => commentNode l.2 }
      (tag ++ (commentLines lines ++ '\n' :: back) ++ close) := by
  have hlone : ∀ c, (lines.map fun l => commentNode l.2) = [c] → c.isText = false := by
    intro c hc
    obtain ⟨l, -, rfl⟩ := List.map_eq_singleton_iff.1 hc
    rfl
  have helement := isElementWith_opened (P := (·.Gives _)) htag (fun c r hc => by
    obtain ⟨ms, hread, hgives⟩ := holds_commentLines hindent hback hbalanced c r hc
    exact ⟨ms, hread, fun place => gives_held place name as hlone hgives⟩) hclose
  exact ⟨helement.head, helement.reads⟩

/-- The comments of an element, each on a line of its own, become its children, one expression for
each, just if what they say is balanced. -/
theorem holdsComments_iff (htag : IsOpenTag ⟨name, as, false⟩ tag) (hclose : IsCloseTag name close)
    (hindent : ∀ l ∈ lines, IsBlank l.1) (hback : IsBlank back) (key : String) :
    HoldsComments (tag ++ (commentLines lines ++ '\n' :: back) ++ close) key (Fields.ofTag name as)
        (lines.map Prod.snd) ↔
      ∀ l ∈ lines, IsBalanced l.2.toList := by
  constructor
  · rintro ⟨p, n, hp, hroot, -, hchildren⟩
    rw [List.map_map] at hchildren
    have hc : (ofText (tag ++ (commentLines lines ++ '\n' :: back) ++ close)).rest =
        tag ++ (commentLines lines ++ ('\n' :: back ++ close)) := by
      simp [ofText]
    obtain ⟨r, hr⟩ := htag.head
    obtain ⟨imports, g, m, _, after, hm, -, rfl⟩ :=
      Page.first_of_read (e := n) (by rw [String.toList_ofList, hr]; rfl) hp (by rw [hroot]; rfl)
    rw [String.toList_ofList] at hm
    have hopen := htag.reads _ _ hc
    cases hm with
    | closed htag' hclosed =>
      rw [hopen] at htag'
      cases htag'
      cases hclosed
    | element htag' _ hheld =>
      rw [hopen] at htag'
      cases htag'
      exact balanced_of_children hindent (advance_rest_append hc) hheld hchildren
  · intro hbalanced
    obtain ⟨p, n, hp, hroot, hbare⟩ :=
      read_of_isElementOf (isElementOf_commented htag hclose hindent hback hbalanced) key
    rw [Node.bare_eq, Node.bare_eq] at hbare
    have hchildren := congrArg Node.children hbare
    refine ⟨p, n, hp, hroot, congrArg Node.fields hbare, hchildren.trans ?_⟩
    rw [Node.bareAll_eq_map, List.map_map, List.map_map]
    rfl

end Elements

/-- Comments with quotes, braces and a tag in them. -/
def sayings : List (List Char × String) :=
  [("  ".toList, " say \"don't\" "), ([], "\x7ba: \x60\x7d\x60\x7d <p>")]

theorem holdsComments_sayings :
    IsOpenTag ⟨"div", [], false⟩ "<div>".toList ∧ IsCloseTag "div" "</div>".toList ∧
      (∀ l ∈ sayings, IsBlank l.1 ∧ IsBalanced l.2.toList) ∧
      HoldsComments
        "<div>\n  \x7b/* say \"don't\" */\x7d\n\x7b/*\x7ba: \x60\x7d\x60\x7d <p>*/\x7d\n</div>".toList
        "k" (Fields.ofTag "div" []) (sayings.map Prod.snd) := by
  have hdiv : ({ type := "div" } : Fields).IsCanonical :=
    isCanonical_of_type ⟨_, _, rfl, by decide, by decide⟩ none
  have htag : IsOpenTag ⟨"div", [], false⟩ "<div>".toList :=
    Fields.isOpenTag_openTag hdiv.isRead hdiv.closes false
  have hclose : IsCloseTag "div" "</div>".toList := Fields.isCloseTag_closeTag hdiv.name
  have hsayings : ∀ l ∈ sayings, IsBlank l.1 ∧ IsBalanced l.2.toList := by decide
  refine ⟨htag, hclose, hsayings, ?_⟩
  have hback : IsBlank [] := rfl
  exact (holdsComments_iff htag hclose (fun l hl => (hsayings l hl).1) hback "k").2
    fun l hl => (hsayings l hl).2

/-- Comments of which none holds the end of a comment: an apostrophe alone, two of them, a brace alone
and a backslash in front of a quote. -/
def unbalanced : List (List String) :=
  [["don't"], ["don't", "can't"], ["\x7d"], ["\x7b"], ["'\\'"]]

/-- The comments between the tags of an element. -/
def commentedPage (bodies : List String) : List Char :=
  "<div>".toList ++ (commentLines (bodies.map fun c => ([], c)) ++ ['\n']) ++ "</div>".toList

theorem not_holdsComments_unbalanced :
    unbalanced ≠ [] ∧ ∀ bodies ∈ unbalanced, (∀ c ∈ bodies, ¬ ['*', '/'] <:+: c.toList) ∧
      ¬ HoldsComments (commentedPage bodies) Tree.defaultKey (Fields.ofTag "div" []) bodies := by
  have hlost : ∀ bodies ∈ unbalanced,
      (Page.read (String.ofList (commentedPage bodies))).toOption.map (fun p =>
        p.tree.root.children.map fun n => n.children.map (·.fields.text)) ≠
          some [bodies.map fun c => some (commentText c)] := by
    decide +kernel
  refine ⟨List.cons_ne_nil _ _, fun bodies hbodies => ⟨?_, ?_⟩⟩
  · revert bodies
    decide
  · rintro ⟨p, n, hp, hroot, -, hchildren⟩
    have htexts : n.children.map (·.fields.text) = bodies.map fun c => some (commentText c) := by
      have hall := congrArg (List.map (·.fields.text)) hchildren
      rw [Node.bareAll_eq_map, List.map_map, List.map_map] at hall
      simpa [Function.comp_def, Node.bare_eq, commentNode] using hall
    refine hlost bodies hbodies ?_
    rw [hp, Except.toOption, Option.map_some, hroot, List.map_singleton, htexts]

end PageEditor
