import PageEditor.Proofs.Markup.PrintedImports

/-!
# Synced imports

The statements that are printed for what a tree needs are read as imports of just that: one for each
package with the names that are needed of it, and one for each other need. Put behind the imports of a
text they leave these as they are, give a meaning to every name that the tree needs and to no other
one, and leave nothing to be added.
-/
set_option autoImplicit false

namespace PageEditor

open Cursor

/-! ## Names by package -/

theorem mem_addNew {α : Type} [DecidableEq α] {xs : List α} {x y : α} :
    y ∈ addNew xs x ↔ y ∈ xs ∨ y = x := by
  rw [addNew]
  split
  · rename_i hx
    exact ⟨.inl, fun h => h.elim id fun heq => heq ▸ hx⟩
  · rw [List.mem_append, List.mem_singleton]

theorem mem_foldl_addNew {α : Type} [DecidableEq α] {y : α} (xs : List α) : ∀ ys : List α,
    y ∈ xs.foldl addNew ys ↔ y ∈ ys ∨ y ∈ xs := by
  induction xs with
  | nil => simp
  | cons x xs ih =>
    intro ys
    rw [List.foldl_cons, ih, mem_addNew, List.mem_cons, or_assoc]

namespace Needed

/-- Under each package the map has the names of the needs of that package, and no package without
names. -/
structure Grouped (ns : List Needed) (m : OrderedMap (List String)) : Prop where
  mem_iff : ∀ p s, s ∈ (m.get? p).getD [] ↔
    ∃ n ∈ ns, n.kind = .named ∧ n.package = p ∧ n.specifier = s
  nonempty : ∀ p, m.get? p ≠ some []

theorem Grouped.add {ns : List Needed} {m : OrderedMap (List String)} (h : Grouped ns m)
    (n : Needed) :
    Grouped (ns ++ [n]) (if n.kind = .named then
      m.insert n.package (addNew ((m.get? n.package).getD []) n.specifier) else m) := by
  have hlast : ∀ p s, (∃ k ∈ ns ++ [n], k.kind = .named ∧ k.package = p ∧ k.specifier = s) ↔
      s ∈ (m.get? p).getD [] ∨ n.kind = .named ∧ n.package = p ∧ n.specifier = s := by
    intro p s
    rw [h.mem_iff]
    simp only [List.mem_append, List.mem_singleton, or_and_right, exists_or, exists_eq_left]
  split
  · rename_i hkind
    refine ⟨fun p s => ?_, fun p => ?_⟩
    · rw [hlast, OrderedMap.get?_insert]
      by_cases hp : p = n.package
      · rw [if_pos hp, Option.getD_some, mem_addNew, hp]
        simp [hkind, eq_comm]
      · rw [if_neg hp]
        simp [Ne.symm hp]
    · rw [OrderedMap.get?_insert]
      split
      · rw [ne_eq, Option.some_inj]
        exact List.ne_nil_of_mem (mem_addNew.2 (.inr rfl))
      · exact h.nonempty p
  · rename_i hkind
    refine ⟨fun p s => ?_, h.nonempty⟩
    rw [hlast]
    simp [hkind]

theorem grouped_byPackage (ns : List Needed) : Grouped ns (byPackage ns) := by
  have hfold : ∀ (more ns : List Needed) (m : OrderedMap (List String)), Grouped ns m →
      Grouped (ns ++ more) (more.foldl (fun m n =>
        if n.kind = .named then
          m.insert n.package (addNew ((m.get? n.package).getD []) n.specifier)
        else m) m) := by
    intro more
    induction more with
    | nil =>
      intro ns m h
      rwa [List.append_nil]
    | cons n more ih =>
      intro ns m h
      have hrest := ih (ns ++ [n]) _ (h.add n)
      rwa [List.append_assoc, List.singleton_append] at hrest
  refine hfold ns [] .empty ⟨fun p s => ?_, fun p => ?_⟩
  · constructor
    · rintro ⟨⟩
    · rintro ⟨n, ⟨⟩, _⟩
  · rintro ⟨⟩

/-! ## Printed statements -/

theorem exists_map_eq {α β : Type} {f : β → α} {P : β → Prop} {xs : List α}
    (h : ∀ x ∈ xs, ∃ y, f y = x ∧ P y) : ∃ ys : List β, ys.map f = xs ∧ ∀ y ∈ ys, P y := by
  induction xs with
  | nil => exact ⟨[], rfl, by rintro _ ⟨⟩⟩
  | cons x xs ih =>
    obtain ⟨⟨y, rfl, hy⟩, hxs⟩ := List.forall_mem_cons.1 h
    obtain ⟨ys, rfl, hys⟩ := ih hxs
    exact ⟨y :: ys, rfl, List.forall_mem_cons.2 ⟨hy, hys⟩⟩

/-- Some needs of one package. -/
structure IsGroup (ns : List Needed) (g : String × List Needed) : Prop where
  nonempty : g.2 ≠ []
  needs : ∀ n ∈ g.2, n ∈ ns ∧ n.kind = .named ∧ n.package = g.1

theorem exists_groups (ns : List Needed) :
    ∃ gs : List (String × List Needed),
      gs.map (fun g => (g.1, g.2.map specifier)) = (byPackage ns).entries ∧
      ∀ g ∈ gs, IsGroup ns g := by
  refine exists_map_eq fun e he => ?_
  obtain ⟨p, specs⟩ := e
  have hget := (byPackage ns).get?_eq_some_iff.2 he
  have hgrouped := grouped_byPackage ns
  have hmade : ∀ s ∈ specs, ∃ n, n.specifier = s ∧ n ∈ ns ∧ n.kind = .named ∧ n.package = p := by
    intro s hs
    obtain ⟨n, hn, hkind, hpackage, hspecifier⟩ :=
      (hgrouped.mem_iff p s).1 (by rw [hget]; exact hs)
    exact ⟨n, hspecifier, hn, hkind, hpackage⟩
  obtain ⟨ks, rfl, hks⟩ := exists_map_eq hmade
  refine ⟨(p, ks), rfl, fun hnil => hgrouped.nonempty p ?_, hks⟩
  rw [hget, show ks = [] from hnil]
  rfl

/-- The statement for a group, and what it is read as. -/
def groupLine (g : String × List Needed) : List Char × (String × List Binding) :=
  ("import ".toList ++ (("\x7b ".toList ++ (specifiers g.2 ++ " \x7d".toList)) ++ (" from".toList ++
    (" \"".toList ++ g.1.toList ++ "\"".toList ++ ";".toList))), (g.1, g.2.map binding))

/-- The statement for a need alone, and what it is read as. -/
def ownLine (n : Needed) : List Char × (String × List Binding) :=
  (n.statement, (n.package, [n.binding]))

/-- The statements for needs that are grouped like this. -/
def printed (ns : List Needed) (gs : List (String × List Needed)) :
    List (List Char × (String × List Binding)) :=
  gs.map groupLine ++ (ns.filter (·.kind != .named)).map ownLine

theorem toList_singleLine? (n : Needed) :
    n.singleLine?.map String.toList = if n.kind != .named then some n.statement else none := by
  unfold singleLine? statement clause source
  cases n.kind <;> simp

theorem toList_groupLine (g : String × List Needed) :
    ("import \x7b " ++ String.intercalate ", " (g.2.map specifier) ++ " \x7d from \"" ++ g.1 ++
      "\";").toList = (groupLine g).1 := by
  unfold groupLine specifiers
  simp [String.toList_intercalate, Function.comp_def]

theorem toList_lines {ns : List Needed} {gs : List (String × List Needed)}
    (h : gs.map (fun g => (g.1, g.2.map specifier)) = (byPackage ns).entries) :
    (lines ns).map String.toList = (printed ns gs).map Prod.fst := by
  have hown : (ns.filterMap singleLine?).map String.toList =
      ((ns.filter (·.kind != .named)).map ownLine).map Prod.fst := by
    rw [List.map_filterMap, List.map_map, ← List.filterMap_eq_map, List.filterMap_filter]
    exact congrArg (List.filterMap · ns) (funext toList_singleLine?)
  have hgroups : ((byPackage ns).entries.map fun e =>
      "import \x7b " ++ String.intercalate ", " e.2 ++ " \x7d from \"" ++ e.1 ++ "\";").map
        String.toList = (gs.map groupLine).map Prod.fst := by
    rw [← h]
    simp only [List.map_map]
    exact List.map_congr_left fun g _ => toList_groupLine g
  rw [lines, List.map_append, hgroups, hown, printed, List.map_append]

section Printed

variable {ns : List Needed} {gs : List (String × List Needed)} (hnamed : ∀ n ∈ ns, n.IsNamed)
  (hgroups : ∀ g ∈ gs, IsGroup ns g)

include hnamed hgroups

theorem isLine_printed : ∀ l ∈ printed ns gs, IsLine l.1 l.2 := by
  intro l hl
  rcases List.mem_append.1 hl with hl | hl
  · obtain ⟨g, hg, rfl⟩ := List.mem_map.1 hl
    obtain ⟨hne, hneeds⟩ := hgroups g hg
    obtain ⟨n, hn⟩ := List.exists_mem_of_ne_nil _ hne
    refine isLine_of_isClause (isClause_specifiers hne fun n hn => ?_) ?_
    · exact ⟨hnamed n (hneeds n hn).1, (hneeds n hn).2.1⟩
    · rw [← (hneeds n hn).2.2]
      exact (hnamed n (hneeds n hn).1).package
  · obtain ⟨n, hn, rfl⟩ := List.mem_map.1 hl
    exact isLine_statement (hnamed n (List.mem_filter.1 hn).1)

omit hnamed in
theorem exists_need_of_printed {l : List Char × (String × List Binding)} {b : Binding}
    (hl : l ∈ printed ns gs) (hb : b ∈ l.2.2) : ∃ n ∈ ns, n.package = l.2.1 ∧ n.binding = b := by
  rcases List.mem_append.1 hl with hl | hl
  · obtain ⟨g, hg, rfl⟩ := List.mem_map.1 hl
    obtain ⟨n, hn, rfl⟩ := List.mem_map.1 hb
    obtain ⟨hmem, _, hpackage⟩ := (hgroups g hg).needs n hn
    exact ⟨n, hmem, hpackage, rfl⟩
  · obtain ⟨n, hn, rfl⟩ := List.mem_map.1 hl
    exact ⟨n, (List.mem_filter.1 hn).1, rfl, (List.mem_singleton.1 hb).symm⟩

theorem binding_mem_printed (h : gs.map (fun g => (g.1, g.2.map specifier)) = (byPackage ns).entries)
    {n : Needed} (hn : n ∈ ns) : ∃ l ∈ printed ns gs, n.binding ∈ l.2.2 := by
  by_cases hkind : n.kind = .named
  · have hmem := ((grouped_byPackage ns).mem_iff n.package n.specifier).2 ⟨n, hn, hkind, rfl, rfl⟩
    cases hget : (byPackage ns).get? n.package with
    | none =>
      rw [hget] at hmem
      cases hmem
    | some specs =>
      rw [hget] at hmem
      have hentry := (byPackage ns).get?_eq_some_iff.1 hget
      rw [← h] at hentry
      obtain ⟨g, hg, hpair⟩ := List.mem_map.1 hentry
      obtain ⟨-, rfl⟩ := Prod.mk.inj hpair
      obtain ⟨m, hm, hspecifier⟩ := List.mem_map.1 hmem
      obtain ⟨hmns, hmkind, -⟩ := (hgroups g hg).needs m hm
      have hbinding := binding_of_specifier (hnamed m hmns) (hnamed n hn) hmkind hkind hspecifier
      refine ⟨groupLine g, List.mem_append_left _ (List.mem_map_of_mem hg), ?_⟩
      exact hbinding ▸ List.mem_map_of_mem hm
  · refine ⟨ownLine n, List.mem_append_right _ (List.mem_map_of_mem ?_), List.mem_singleton_self _⟩
    exact List.mem_filter.2 ⟨hn, bne_iff_ne.2 hkind⟩

end Printed

theorem readsImports_of_lines {ls : List (List Char × (String × List Binding))} (hne : ls ≠ [])
    (h : ∀ l ∈ ls, IsLine l.1 l.2) {rest : List Char} : ∀ {front : List Char} {c : Cursor},
    IsTrivia front → c.rest = front ++ (List.intercalate ['\n'] (ls.map Prod.fst) ++ rest) →
    ∃ is d, ReadsImports c is d ∧ is.map Import.names = ls.map Prod.snd ∧ d.rest = rest := by
  induction ls with
  | nil => exact absurd rfl hne
  | cons l ls ih =>
    obtain ⟨hl, hls⟩ := List.forall_mem_cons.1 h
    intro front c hfront hc
    -- The statement begins where the skipping stops.
    have hread : ∀ more : List Char, c.rest = front ++ (l.1 ++ more) →
        ∃ i d, c.skipTrivia.importStatement = .ok (i, d) ∧ i.names = l.2 ∧ d.rest = more := by
      intro more hmore
      have hrest := advance_rest_append hmore
      have hhead : (c.advance front.length).rest.head? = some 'i' := by
        rw [hrest, List.head?_append, hl.head]
        rfl
      obtain ⟨r, hr⟩ := List.head?_eq_some_iff.1 hhead
      rw [hfront c _ hmore, skipTrivia_of_head hr (by decide) (by decide)]
      exact hl.reads _ more hrest
    cases ls with
    | nil =>
      obtain ⟨i, d, hi, hnames, hd⟩ := hread rest (by simpa using hc)
      exact ⟨[i], d, .cons hi (.nil d), by simp [hnames], hd⟩
    | cons m ms =>
      obtain ⟨i, d, hi, hnames, hd⟩ := hread
        (['\n'] ++ (List.intercalate ['\n'] ((m :: ms).map Prod.fst) ++ rest))
        (by rw [hc]; simp [List.intercalate_cons_cons])
      obtain ⟨is, e, his, hnames', he⟩ := ih (List.cons_ne_nil _ _) hls isTrivia_lineFeed hd
      exact ⟨i :: is, e, .cons hi his, by simp [hnames, hnames'], he⟩

/-- Imports that name some needs and nothing else. -/
structure NamedBy (ns : List Needed) (is : List Import) : Prop where
  sound : ∀ i ∈ is, ∀ b ∈ i.bindings, ∃ n ∈ ns, n.package = i.package ∧ n.binding = b
  complete : ∀ n ∈ ns, ∃ i ∈ is, n.binding ∈ i.bindings

/-- The lines for some needs. -/
def block (ns : List Needed) : List Char := (String.intercalate "\n" (lines ns)).toList

section Block

variable {ns : List Needed} (hne : ns ≠ []) (hnamed : ∀ n ∈ ns, n.IsNamed) {front rest : List Char}

include hne hnamed

/-- The statements for some needs are read as imports of just these needs. -/
theorem exists_imports_of_block {c : Cursor} (hfront : IsTrivia front)
    (hc : c.rest = front ++ (block ns ++ rest)) :
    ∃ is d, ReadsImports c is d ∧ d.rest = rest ∧ NamedBy ns is := by
  obtain ⟨gs, hgs, hgroups⟩ := exists_groups ns
  rw [block, String.toList_intercalate, toList_lines hgs] at hc
  have hprinted : printed ns gs ≠ [] := by
    obtain ⟨n, hn⟩ := List.exists_mem_of_ne_nil _ hne
    obtain ⟨l, hl, _⟩ := binding_mem_printed hnamed hgroups hgs hn
    exact List.ne_nil_of_mem hl
  obtain ⟨is, d, hread, hnames, hd⟩ :=
    readsImports_of_lines hprinted (isLine_printed hnamed hgroups) hfront hc
  refine ⟨is, d, hread, hd, ?_, ?_⟩
  · intro i hi b hb
    have hmem : i.names ∈ (printed ns gs).map Prod.snd := hnames ▸ List.mem_map_of_mem hi
    obtain ⟨l, hl, hli⟩ := List.mem_map.1 hmem
    have hlb : b ∈ l.2.2 := by rwa [hli]
    obtain ⟨n, hn, hpackage, hbinding⟩ := exists_need_of_printed hgroups hl hlb
    exact ⟨n, hn, by rw [hpackage, hli]; rfl, hbinding⟩
  · intro n hn
    obtain ⟨l, hl, hb⟩ := binding_mem_printed hnamed hgroups hgs hn
    have hmem : l.2 ∈ is.map Import.names := hnames ▸ List.mem_map_of_mem hl
    obtain ⟨i, hi, hil⟩ := List.mem_map.1 hmem
    refine ⟨i, hi, ?_⟩
    rw [← hil] at hb
    exact hb

theorem head?_skipTrivia_block (hfront : IsTrivia front) :
    (ofText (front ++ (block ns ++ rest))).skipTrivia.rest.head? ≠ some ';' := by
  obtain ⟨is, _, his, _, hnames⟩ :=
    exists_imports_of_block hne hnamed (c := ofText _) hfront rfl
  obtain ⟨n, hn⟩ := List.exists_mem_of_ne_nil _ hne
  obtain ⟨i, hi, _⟩ := hnames.complete n hn
  obtain ⟨r, hr⟩ := his.head (List.ne_nil_of_mem hi)
  rw [hr]
  rintro ⟨⟩

theorem prelude_of_block {source back : List Char} {is : List Import} {d e : Cursor}
    (hread : ReadsImports (ofText source) is e) (hend : e.prelude = .ok ([], d))
    (hfront : IsTrivia front) (hback : IsTrivia back) :
    ∃ added d, (ofText ((ofText source).upTo e ++
        (front ++ (block ns ++ (back ++ e.rest))))).prelude = .ok (is ++ added, d) ∧
      NamedBy ns added := by
  generalize htext : ofText ((ofText source).upTo e ++ (front ++ (block ns ++ (back ++ e.rest)))) = c
  have hrest : c.rest = (ofText source).upTo e ++ (front ++ (block ns ++ (back ++ e.rest))) := by
    rw [← htext, ofText]
  have hstart : c.offset = 0 := by rw [← htext, ofText]
  have hsemicolon : (ofText (front ++ (block ns ++ (back ++ e.rest)))).skipTrivia.rest.head? ≠
      some ';' := head?_skipTrivia_block hne hnamed hfront
  obtain ⟨is', e', hread', _, he', hsame⟩ := hread.grafted hsemicolon hrest
  obtain ⟨added, d', hadded, hd', hnames⟩ := exists_imports_of_block hne hnamed hfront he'
  have hskip : d'.skipTrivia.rest = e.skipTrivia.rest := by
    have hd'' : d'.rest = (ofText (back ++ e.rest)).rest := hd'
    rw [skipTrivia_rest hd'', skipTrivia_append hback]
    exact skipTrivia_rest rfl
  have hall := hread'.prelude (hadded.prelude (prelude_eq_nil_of_rest hend hskip))
  rw [hsame hstart, List.append_nil] at hall
  exact ⟨added, _, hall, hnames⟩

end Block

end Needed

/-! ## Texts with all their imports -/

theorem Import.readAll_eq_ok {source : String} {imports : List Import} :
    Import.readAll source = .ok imports ↔
      ∃ c, (ofText source.toList).prelude = .ok (imports, c) := by
  rw [Import.readAll]
  cases (ofText source.toList).prelude with
  | error e => exact ⟨(by rintro ⟨⟩), (by rintro ⟨_, ⟨⟩⟩)⟩
  | ok p =>
    obtain ⟨imports', c⟩ := p
    constructor
    · rintro ⟨⟩
      exact ⟨c, rfl⟩
    · rintro ⟨_, ⟨⟩⟩
      rfl

/-- What an import of a component names in its package. -/
def ComponentInfo.exported (c : ComponentInfo) : String :=
  match c.kind with
  | .named => baseName c.imported
  | .default => "default"
  | .whole => "*"

namespace Tree

variable {t : Tree} {imports : List Import}

theorem mem_missing {n : Needed} :
    n ∈ t.missing imports ↔
      n ∈ t.root.neededAll ∧ Import.resolve? imports n.localName = none := by
  rw [missing, List.mem_filter, needed, mem_foldl_addNew, Option.isNone_iff_eq_none]
  simp

/-- What adding the missing imports makes of a text: a block behind the imports that it has, which is
read as further ones. All the names that the tree needs have a meaning then. The names that had one keep
it, and the others mean what components of the tree stand for. -/
structure Synced (t : Tree) (source out : List Char) (imports added : List Import) : Prop where
  inserted : ∃ front block back, source = front ++ back ∧
    Text.byteLength front = Import.endOffset imports ∧ out = front ++ (block ++ back)
  read : Import.readAll (String.ofList out) = .ok (imports ++ added)
  needed : ∀ n ∈ t.root.neededAll, (Import.resolve? (imports ++ added) n.localName).isSome
  kept : ∀ name r, Import.resolve? imports name = some r →
    Import.resolve? (imports ++ added) name = some r
  new : ∀ name package b, Import.resolve? imports name = none →
    Import.resolve? (imports ++ added) name = some (package, b) →
    ∃ n ∈ t.root.nodes, ∃ c, n.component? = some c ∧ baseName n.type = name ∧
      c.package = package ∧ c.kind = b.kind ∧ c.exported = b.imported
  again : t.syncImports out = out

theorem component_of_needed {n : Needed} (h : n ∈ t.root.neededAll) :
    ∃ m ∈ t.root.nodes, ∃ c, m.component? = some c ∧ baseName m.type = n.localName ∧
      c.package = n.package ∧ c.kind = n.binding.kind ∧ c.exported = n.binding.imported := by
  rw [neededAll_eq_flatMap] at h
  obtain ⟨m, hm, hn⟩ := List.mem_flatMap.1 h
  have hneeded := Option.mem_toList.1 hn
  rw [Node.needed?] at hneeded
  split at hneeded
  · cases hneeded
  · rename_i c hc
    split at hneeded
    · cases hneeded
    · cases hneeded
      refine ⟨m, hm, c, hc, rfl, rfl, ?_⟩
      rw [ComponentInfo.exported, Needed.binding]
      cases c.kind <;> simp

section Added

variable {added : List Import} (h : Needed.NamedBy (t.missing imports) added)

include h

theorem needed_of_namedBy {n : Needed} (hn : n ∈ t.root.neededAll) :
    (Import.resolve? (imports ++ added) n.localName).isSome := by
  rw [Import.resolve?_append]
  cases hold : Import.resolve? imports n.localName with
  | some r => rfl
  | none =>
    obtain ⟨i, hi, hb⟩ := h.complete n (mem_missing.2 ⟨hn, hold⟩)
    have hlocal : n.binding.localName = n.localName := n.localName_binding
    rw [Option.none_or, ← hlocal]
    exact Import.resolve?_isSome hi hb

theorem new_of_namedBy {name package : String} {b : Binding} (hold : Import.resolve? imports name = none)
    (hnew : Import.resolve? (imports ++ added) name = some (package, b)) :
    ∃ n ∈ t.root.nodes, ∃ c, n.component? = some c ∧ baseName n.type = name ∧
      c.package = package ∧ c.kind = b.kind ∧ c.exported = b.imported := by
  rw [Import.resolve?_append, hold, Option.none_or] at hnew
  obtain ⟨i, hi, rfl, hb, rfl⟩ := Import.mem_of_resolve? hnew
  obtain ⟨n, hn, hpackage, rfl⟩ := h.sound i hi b hb
  obtain ⟨m, hm, c, hc, hname, hrest⟩ := component_of_needed (mem_missing.1 hn).1
  rw [n.localName_binding, ← hpackage]
  exact ⟨m, hm, c, hc, hname, hrest⟩

theorem synced_of_namedBy {source out front block back : List Char}
    (hsource : source = front ++ back) (hfront : Text.byteLength front = Import.endOffset imports)
    (hout : out = front ++ (block ++ back))
    (hread : Import.readAll (String.ofList out) = .ok (imports ++ added)) :
    t.Synced source out imports added := by
  refine ⟨⟨front, block, back, hsource, hfront, hout⟩, hread, fun n hn => needed_of_namedBy h hn, ?_,
    fun name package b => new_of_namedBy h, ?_⟩
  · intro name r hr
    rw [Import.resolve?_append, hr, Option.some_or]
  · have hmissing := missing_of_allNamed fun n hn => needed_of_namedBy h hn
    obtain ⟨c, hprelude⟩ := Import.readAll_eq_ok.1 hread
    rw [String.toList_ofList] at hprelude
    simp only [syncImports, hprelude, hmissing, List.isEmpty_nil, if_true]

end Added

/-- Adding the missing imports of a tree does what it should, as long as their names are names and
their packages can stand between quotes. -/
theorem synced_syncImports {source : String} (hread : Import.readAll source = .ok imports)
    (hnamed : ∀ n ∈ t.root.neededAll, n.IsNamed) :
    ∃ added, t.Synced source.toList (t.syncImports source.toList) imports added := by
  obtain ⟨d, hprelude⟩ := Import.readAll_eq_ok.1 hread
  obtain ⟨e, he, hend⟩ := readsImports_of_prelude hprelude
  have hsource := (upTo_ofText_append_rest he.leads).symm
  have hfront : Text.byteLength ((ofText source.toList).upTo e) = Import.endOffset imports := by
    have hoffset := he.leads.offset
    rwa [← he.endOffset, ofText, Nat.zero_add] at hoffset
  by_cases hmissing : t.missing imports = []
  · have hnames : Needed.NamedBy (t.missing imports) [] := by
      rw [hmissing]
      exact ⟨by rintro _ ⟨⟩, by rintro _ ⟨⟩⟩
    have hsame : t.syncImports source.toList = source.toList := by
      simp only [syncImports, hprelude, hmissing, List.isEmpty_nil, if_true]
    have hnothing : source.toList = (ofText source.toList).upTo e ++ ([] ++ e.rest) := hsource
    rw [hsame]
    refine ⟨[], synced_of_namedBy hnames hsource hfront hnothing ?_⟩
    rwa [String.ofList_toList, List.append_nil]
  · -- The block goes between the old imports and what stands behind them.
    obtain ⟨front, back, hbefore, hbehind, hinsert⟩ :=
      insertBlock_eq he (Needed.block (t.missing imports))
    have hsync : t.syncImports source.toList = (ofText source.toList).upTo e ++
        (front ++ (Needed.block (t.missing imports) ++ (back ++ e.rest))) := by
      simp only [syncImports, hprelude, List.isEmpty_eq_false_iff.2 hmissing]
      exact hinsert
    have hnamed' : ∀ n ∈ t.missing imports, n.IsNamed := fun n hn => hnamed n (mem_missing.1 hn).1
    obtain ⟨added, c, hall, hnames⟩ :=
      Needed.prelude_of_block hmissing hnamed' he hend hbefore hbehind
    have hout : t.syncImports source.toList = (ofText source.toList).upTo e ++
        ((front ++ (Needed.block (t.missing imports) ++ back)) ++ e.rest) := by
      rw [hsync]
      simp only [List.append_assoc]
    refine ⟨added, synced_of_namedBy hnames hsource hfront hout (Import.readAll_eq_ok.2 ⟨c, ?_⟩)⟩
    rw [String.toList_ofList, hsync]
    exact hall

/-- A page with three components, one of them renamed and one that is a member of a default export. -/
def chartPage : Tree :=
  around
    { Node.root with children :=
      [{ Node.ofType "n-1" "Icon" with component := some ⟨true, "icons", "Home", .named⟩ },
        { Node.ofType "n-2" "Button" with component := some ⟨true, "ui", "Button", .named⟩ },
        { Node.ofType "n-3" "Chart.Line" with
          component := some ⟨true, "charts", "Chart.Line", .default⟩ }] }
    ⟨"n", 4⟩

theorem synced_chartPage :
    chartPage.syncImports "import \x7b Button \x7d from 'ui'\n<p />".toList =
        ("import \x7b Button \x7d from 'ui'\nimport \x7b Home as Icon \x7d from \"icons\";\n" ++
          "import Chart from \"charts\";\n<p />").toList ∧
      ∃ imports added, chartPage.Synced "import \x7b Button \x7d from 'ui'\n<p />".toList
        (chartPage.syncImports "import \x7b Button \x7d from 'ui'\n<p />".toList) imports added := by
  have hok : (Import.readAll "import \x7b Button \x7d from 'ui'\n<p />").isOk = true := by
    decide +kernel
  obtain ⟨imports, hread⟩ := isOk_iff.1 hok
  have hnamed : ∀ n ∈ chartPage.root.neededAll, n.IsNamed := by
    have hneeded : chartPage.root.neededAll = [⟨"icons", "Home", "Icon", .named⟩,
        ⟨"ui", "Button", "Button", .named⟩, ⟨"charts", "Chart", "Chart", .default⟩] := by
      decide +kernel
    rw [hneeded]
    simp only [List.forall_mem_cons, List.not_mem_nil, false_imp_iff, implies_true, and_true]
    refine ⟨⟨fun _ => ?_, ?_, ?_⟩, ⟨fun _ => ?_, ?_, ?_⟩, ⟨(by rintro ⟨⟩), ?_, ?_⟩⟩ <;> decide +kernel
  exact ⟨by decide +kernel, imports, synced_syncImports hread hnamed⟩

end Tree

end PageEditor
