import PageEditor.Proofs.Edit.Timeline
import PageEditor.Proofs.Markup.Reopening

/-!
# Saving rearranged pages

What is saved after nodes of a loaded page have been deleted, copied and moved. The present tree
stems from the loaded one all the time, so its text can be read again just where `Tree.Reopens` holds,
and that is so for all orderly trees. Pages for which it fails are given behind the theorem.
-/
set_option autoImplicit false

namespace PageEditor.Session

variable {s : Session} {t₀ t : Tree}

/-- Whether a command is carried out or turned down, the tree keeps what the command keeps. -/
theorem page_dispatch {P : Tree → Prop} (hs : s.Sound) (hmode : s.mode = .page t) (h : P t)
    {c : Command} (hc : P (c.apply s.defaults t).2) :
    ∃ t', (s.perform (.dispatch c)).mode = .page t' ∧ P t' := by
  rw [perform]
  cases happly : c.apply s.defaults t with
  | mk r t' =>
    rw [happly] at hc
    cases r with
    | error e =>
      rw [hs.dispatch_of_error hmode happly]
      exact ⟨t, hmode, h⟩
    | ok r =>
      rw [dispatch_of_ok hmode happly]
      exact ⟨t', rfl, hc⟩

theorem page_run_dispatch {P : Tree → Prop} {cs : List Command}
    (hcs : ∀ c ∈ cs, ∀ (d : Defaults) (t : Tree), t.WellFormed → P t → P (c.apply d t).2) :
    ∀ {s : Session} {t : Tree}, s.Sound → s.mode = .page t → P t →
      ∃ t', (s.run (cs.map .dispatch)).mode = .page t' ∧ P t' := by
  induction cs with
  | nil => exact fun _ hmode h => ⟨_, hmode, h⟩
  | cons c cs ih =>
    intro s t hs hmode h
    obtain ⟨hc, hcs⟩ := List.forall_mem_cons.1 hcs
    obtain ⟨t', hmode', h'⟩ := page_dispatch hs hmode h (hc s.defaults t (hs.tree t hmode) h)
    exact ih hcs (sound_perform hs (.dispatch c)) hmode' h'

theorem stemsFrom_run {cs : List Command} (hcs : ∀ c ∈ cs, c.rearranges = true) {s : Session}
    {t : Tree} (hs : s.Sound) (hmode : s.mode = .page t) (h : t₀.StemsFrom t) :
    ∃ t', (s.run (cs.map .dispatch)).mode = .page t' ∧ t₀.StemsFrom t' :=
  page_run_dispatch (fun c hc d _ ht h => h.apply ht d (hcs c hc)) hs hmode h

theorem mode_load {source : String} {p : Page} (hp : Page.read source = .ok p) (defaults : Defaults)
    (undoLevels : Nat) : (load source defaults undoLevels).mode = .page p.tree := by
  rw [load, Mode.ofText, hp]

/-- Whatever is deleted, copied and moved in a page that was loaded, in any order and with any
targets, the page stays one, and what is saved of it can be read again just if its tree meets the
condition. -/
theorem read_save {source : String} {p : Page} (hp : Page.read source = .ok p) (defaults : Defaults)
    (undoLevels : Nat) (cs : List Command) (hcs : ∀ c ∈ cs, c.rearranges = true) :
    ∃ t, ((load source defaults undoLevels).run (cs.map .dispatch)).mode = .page t ∧
      ((Page.read ((load source defaults undoLevels).run (cs.map .dispatch)).save).isOk = true ↔
        t.Reopens source) ∧
      (t.Orderly source.toList → t.Reopens source) := by
  have hload := mode_load hp defaults undoLevels
  obtain ⟨t, hmode, hstems⟩ :=
    stemsFrom_run hcs (sound_load source defaults undoLevels) hload (.refl p.tree)
  refine ⟨t, hmode, ?_, fun h => h.reopens hp hstems⟩
  have hsource : ((load source defaults undoLevels).run (cs.map .dispatch)).source = source := by
    refine source_run ?_ _
    intro op hop other
    obtain ⟨c, _, rfl⟩ := List.mem_map.1 hop
    rintro ⟨⟩
  rw [save, hmode, hsource]
  exact isOk_read_regenerate hp hstems Tree.defaultKey

/-- The ids of a loaded page, in the order of its text. -/
def pageId (k : Nat) : String := IdSource.id (IdSource.seedOf Tree.defaultKey) k

def listPage : String :=
  "import a from 'b';\n<ul><li className=\"x\">one</li> two</ul><p/>\n"

/-- The paragraph goes into the list, an item is copied, the text goes behind all elements, and two
commands are turned down. -/
def listEdits : List Command :=
  [.move (pageId 5) (pageId 1) .inside, .duplicate (pageId 2), .move (pageId 4) (pageId 1) .after,
    .delete "nothing", .move (pageId 1) (pageId 2) .inside]

theorem read_save_listPage :
    (Page.read listPage).isOk = true ∧ (∀ c ∈ listEdits, c.rearranges = true) ∧
      (Page.read ((load listPage).run (listEdits.map .dispatch)).save).isOk = true := by
  have hok : (Page.read listPage).isOk = true := by decide +kernel
  have hedits : ∀ c ∈ listEdits, c.rearranges = true := by decide
  refine ⟨hok, hedits, ?_⟩
  obtain ⟨p, hp⟩ := isOk_iff.1 hok
  obtain ⟨t, hmode, hread, _⟩ := read_save hp .standard 100 listEdits hedits
  have hreopens : ((load listPage).run (listEdits.map .dispatch)).tree?.all
      (fun t => decide (t.Reopens listPage)) = true := by decide +kernel
  rw [tree?, hmode] at hreopens
  exact hread.2 (of_decide_eq_true hreopens)

/-- Pages that are saved as no pages: a quote in an object key is printed as it is, braces between
quotes are taken for an expression, a text lands in front of an element, a tag stands in a text
behind the elements or behind that text, and nothing is left in front of a text. -/
def unreadable : List (String × List Command) :=
  [("<div><p style=\x7b\x7b'a\"b': 1\x7d\x7d/></div>", [.duplicate (pageId 2)]),
    ("<div><p data-animation='\x7b\"\x7d'/></div>", [.duplicate (pageId 2)]),
    ("<div>hello <b/></div>", [.move (pageId 2) (pageId 1) .before]),
    ("<div><b/>\x7ba < b\x7d</div>", [.move (pageId 3) (pageId 1) .after]),
    ("<div>hi<b/></div>\n// a < b", [.move (pageId 2) (pageId 1) .after]),
    ("<div>hi<b/></div>", [.move (pageId 2) (pageId 1) .after, .delete (pageId 1)]),
    ("<b/>\nexport default Page;\n", [.delete (pageId 1)])]

theorem not_read_save_unreadable :
    unreadable ≠ [] ∧ ∀ x ∈ unreadable,
      (Page.read x.1).isOk = true ∧ (∀ c ∈ x.2, c.rearranges = true) ∧
        (Page.read ((load x.1).run (x.2.map .dispatch)).save).isOk = false :=
  ⟨List.cons_ne_nil _ _, by decide +kernel⟩

end PageEditor.Session
