/-
  TimedNet.Proofs.Session.PrintedLine

  The line that a declaration is printed as. It is scanned as the keyword of its kind, its fields
  and its attributes (`scans_line`), and words of these kinds and texts are read as a phrase that
  denotes the declaration again (`leads_line`).
-/
import TimedNet.Proofs.Grammar.Rereading
import TimedNet.Proofs.Session.Growth

namespace TimedNet

-- ============================================================================
-- Tokens of fields
-- ============================================================================

namespace Kind

/-- The keyword of the declarations of a kind. -/
def keyword : Kind → Keyword
  | .clock => .clock
  | .int => .int
  | .event => .event
  | .process => .process
  | .location => .location
  | .edge => .edge
  | .sync => .sync

theorem text_keyword (k : Kind) : k.keyword.text = k.text := by
  cases k <;> rfl

/-- The slots of the fields of a kind; synchronizations have links instead. -/
def slots : Kind → List Slot
  | .clock => [.size, .name]
  | .int => [.size, .bound, .bound, .bound, .name]
  | .event => [.name]
  | .process => [.name]
  | .location => [.name, .name]
  | .edge => [.name, .name, .name, .name]
  | .sync => []

end Kind

namespace Store

/-- What a constraint prints. -/
def content (s : Store) (c : SyncConstraint) : String × String × Strength :=
  (s.nameOf c.process, s.nameOf c.event, c.strength)

/-- The tokens of the fields of an item. -/
def fieldTokens (s : Store) : Item → List (List Shape)
  | .sync constraints => constraints.map fun c => linkShapes (s.content c)
  | i => slotShapes i.kind.slots (s.fields i)

/-- The tokens of a line. -/
def lineTokens (s : Store) (d : Declaration) : List Shape :=
  lineShapes d.kind.keyword (s.fieldTokens d.item) d.attributes

end Store

theorem spells_link {process event : String} (hprocess : IsName process) (hevent : IsName event)
    (strength : Strength) :
    Spells (process ++ "@" ++ event ++ strength.mark) (linkShapes (process, event, strength)) := by
  intro rest ts hrest hts
  have hmark : ∃ marks, Stops (strength.mark.toList ++ rest) ∧
      Scans .outside (strength.mark.toList ++ rest) (marks ++ ts) ∧
      linkShapes (process, event, strength) =
        (.ident, process) :: symbolShape '@' :: (.ident, event) :: marks := by
    cases strength with
    | strong => exact ⟨[], hrest, hts, rfl⟩
    | weak =>
      refine ⟨[symbolShape '?'], stops_cons (by decide) rest, ?_, rfl⟩
      exact Scans.symbol (by decide) (by decide) hts
  obtain ⟨marks, hstops, hscans, hshapes⟩ := hmark
  have hbehind := spells_name hevent _ _ hstops hscans
  have hsign := Scans.symbol (m := .outside) (c := '@') (by decide) (by decide) hbehind
  have htext := spells_name hprocess _ _ (stops_cons (by decide) _) hsign
  rw [hshapes]
  simpa using htext

-- ============================================================================
-- Links
-- ============================================================================

section Links

variable {s : Store} {links : List Link} {constraints : List SyncConstraint}

/-- Constraints print what the links say that they stand for. -/
theorem map_content_eq {log : List Declaration} (hs : s.Keeps log)
    (h : List.Forall₂ (Link.Denotes s) links constraints) :
    constraints.map s.content = links.map Link.content := by
  induction h with
  | nil => rfl
  | @cons l c links constraints hc _ ih =>
    rw [List.map_cons, List.map_cons, ih, Store.content, hs.nameOf_eq rfl hc.process,
      hs.nameOf_eq rfl hc.event, hc.strength]
    rfl

/-- Links that say the same stand for the same constraints, as far as places do not count. -/
theorem exists_forall₂_denotes (h : List.Forall₂ (Link.Denotes s) links constraints)
    {links' : List Link} (hlinks' : links'.map Link.content = links.map Link.content) :
    ∃ constraints', List.Forall₂ (Link.Denotes s) links' constraints' ∧
      constraints'.map SyncConstraint.withoutSpan = constraints.map SyncConstraint.withoutSpan := by
  induction h generalizing links' with
  | nil =>
    obtain rfl := List.map_eq_nil_iff.mp hlinks'
    exact ⟨[], .nil, rfl⟩
  | @cons l c links constraints hc _ ih =>
    obtain ⟨l', links', rfl, hl', hlinks'⟩ := List.map_eq_cons_iff.mp hlinks'
    obtain ⟨constraints', hforall, hmap⟩ := ih hlinks'
    have hprocess : l'.process.text = l.process.text := congrArg Prod.fst hl'
    have hevent : l'.event.text = l.event.text := congrArg (fun x => x.2.1) hl'
    have hstrength : l'.strength = l.strength := congrArg (fun x => x.2.2) hl'
    refine ⟨{ c with span := l'.span } :: constraints', .cons ?_ hforall, ?_⟩
    · exact ⟨by rw [hprocess, hc.process], by rw [hevent, hc.event], by rw [hstrength, hc.strength],
        rfl⟩
    · rw [List.map_cons, List.map_cons, hmap]
      rfl

theorem spells_links (h : ∀ l ∈ links, l.HasNames) :
    List.Forall₂ Spells
      (links.map fun l => l.process.text ++ "@" ++ l.event.text ++ l.strength.mark)
      (links.map fun l => linkShapes l.content) := by
  rw [List.forall₂_map_left_iff, List.forall₂_map_right_iff, List.forall₂_same]
  intro l hl
  exact spells_link (h l hl).1 (h l hl).2 l.strength

end Links

-- ============================================================================
-- Scanning a line
-- ============================================================================

/-- Printed fields are scanned as they are to be read. -/
theorem spells_fields {s : Store} {log : List Declaration} (hs : s.Keeps log) {φ : Phrase} {i : Item}
    (hnames : φ.HasNames) (hφ : φ.Denotes s i) :
    List.Forall₂ Spells (s.fields i) (s.fieldTokens i) := by
  cases hφ with
  | clock => exact .cons (spells_number (isNumber_nat _)) (.cons (spells_name hnames) .nil)
  | int =>
    exact .cons (spells_number (isNumber_nat _)) (.cons (spells_number (isNumber_int _))
      (.cons (spells_number (isNumber_int _)) (.cons (spells_number (isNumber_int _))
        (.cons (spells_name hnames) .nil))))
  | event => exact .cons (spells_name hnames) .nil
  | process => exact .cons (spells_name hnames) .nil
  | location howner =>
    have hp := hs.nameOf_eq rfl howner
    refine .cons (spells_name ?_) (.cons (spells_name hnames.2) .nil)
    rw [hp]
    exact hnames.1
  | edge howner htarget hsource hlabel =>
    obtain ⟨hp, ht, ho, he⟩ := hnames
    have hp' := hs.nameOf_eq rfl howner
    have ht' := hs.nameOf_eq rfl htarget
    have ho' := hs.nameOf_eq rfl hsource
    have he' := hs.nameOf_eq rfl hlabel
    exact .cons (spells_name (hp' ▸ hp)) (.cons (spells_name (ht' ▸ ht))
      (.cons (spells_name (ho' ▸ ho)) (.cons (spells_name (he' ▸ he)) .nil)))
  | @sync links constraints hlinks =>
    have hcontent := map_content_eq hs hlinks
    have hfields : s.fields (.sync constraints) =
        (constraints.map s.content).map fun x => x.1 ++ "@" ++ x.2.1 ++ x.2.2.mark := by
      rw [List.map_map]
      rfl
    have htokens : s.fieldTokens (.sync constraints) =
        (constraints.map s.content).map linkShapes := by
      rw [List.map_map]
      rfl
    rw [hfields, htokens, hcontent, List.map_map, List.map_map]
    exact spells_links hnames.2

/-- **Scanning a line.** A printed declaration is scanned as its tokens and the end of its line. -/
theorem scans_line {s : Store} {log : List Declaration} (hs : s.Keeps log) {φ : Phrase}
    {d : Declaration} (hnames : φ.HasNames) (hφ : φ.Denotes s d.item)
    (has : ∀ a ∈ d.attributes.entries, a.IsPrintable) {rest : List Char} {ss : List Shape}
    (h : Scans .outside rest ss) :
    Scans .outside ((s.line d ++ "\n").toList ++ rest)
      (s.lineTokens d ++ symbolShape '\n' :: ss) := by
  have hline := Scans.line d.kind.keyword (spells_fields hs hnames hφ) has h
  rwa [Kind.text_keyword] at hline

-- ============================================================================
-- Reading a line
-- ============================================================================

section Rules

variable {α : Type} (outer : Context) {c : Context} {rules : List (Keyword × Rule α)} {k : Keyword}
  {as : Attributes}

/-- The keyword of a rule. -/
theorem next_opening {r : Rule α} (hrule : rules.lookup k = some r) {w : Word}
    (hw : w.kind = .keyword k) : (Place.opening outer rules).next w = some (.ofRule r) := by
  simp [Place.next, hw, hrule]

/-- A printed line with fields. -/
theorem leads_fieldsLine {slots : List Slot} {fill : Filling α slots}
    (hrule : rules.lookup k = some (.fields c slots fill)) {texts : List String}
    (hlen : slots.length = texts.length) (has : ∀ a ∈ as.entries, a.IsPrintable) {ws : List Word}
    (hws : ws.map Word.shape = lineShapes k (slotShapes slots texts) as) :
    ∃ ls a es, ls.map Lexeme.text = texts ∧ fill? slots fill ls = some a ∧
      (⟨es⟩ : Attributes).withoutSpans = as.withoutSpans ∧
      Leads (.opening outer rules) ws (partsOf slots ls) (.list c a es .closed) := by
  obtain ⟨w, ws, rfl, hw, hws⟩ := List.map_eq_cons_iff.mp hws
  obtain ⟨front, back, rfl, hfront, hback⟩ := List.map_eq_append_iff.mp hws
  obtain ⟨ls, a, htexts, hfill, hfields⟩ := leads_fields c fill hlen hfront
  obtain ⟨es, hes, hlist⟩ := leads_list c a has (p := .filled c a)
    (fun w hw => by simp [Place.next, hw, Place.part?]) hback
  refine ⟨ls, a, es, htexts, hfill, hes, .cons (next_opening outer hrule (kind_of_shape hw)) rfl ?_⟩
  have hall := hfields.trans hlist
  rwa [List.append_nil] at hall

/-- A printed line with links. -/
theorem leads_linksLine {join : List Link → α} (hrule : rules.lookup k = some (.links c join))
    {contents : List (String × String × Strength)} (hne : contents ≠ [])
    (has : ∀ a ∈ as.entries, a.IsPrintable) {ws : List Word}
    (hws : ws.map Word.shape = lineShapes k (contents.map linkShapes) as) :
    ∃ links es, links ≠ [] ∧ links.map Link.content = contents ∧
      (⟨es⟩ : Attributes).withoutSpans = as.withoutSpans ∧
      Leads (.opening outer rules) ws (links.map Link.part) (.list c (join links) es .closed) := by
  obtain ⟨w, ws, rfl, hw, hws⟩ := List.map_eq_cons_iff.mp hws
  obtain ⟨front, back, rfl, hfront, hback⟩ := List.map_eq_append_iff.mp hws
  obtain ⟨before, last, hcontents, hlinks⟩ := leads_links c join hne hfront
  obtain ⟨es, hes, hlist⟩ := leads_list c (join (before ++ [last])) has
    (p := .link c join before (.done last))
    (fun w hw => by simp [Place.next, Place.nextInLink, hw, Place.part?]) hback
  refine ⟨before ++ [last], es, by simp, hcontents, hes,
    .cons (next_opening outer hrule (kind_of_shape hw)) rfl ?_⟩
  have hall := hlinks.trans hlist
  rwa [List.append_nil] at hall

end Rules

/-- The rule of a kind with fields. Lexemes with the texts that an item prints are the fields of a
phrase that denotes the item, wherever it was denoted before it was printed. -/
theorem denotes_of_fields {s t : Store} {log : List Declaration} (ht : t.Keeps log)
    (hext : s.Extends t) {φ : Phrase} {i : Item} (hφ : φ.Denotes s i) (hsync : i.kind ≠ .sync) :
    ∃ c slots fill, Phrase.rules.lookup i.kind.keyword = some (.fields c slots fill) ∧
      slots.length = (t.fields i).length ∧ t.fieldTokens i = slotShapes slots (t.fields i) ∧
      ∀ ls : List Lexeme, ls.map Lexeme.text = t.fields i →
        ∃ φ', fill? slots fill ls = some φ' ∧ φ'.parts = partsOf slots ls ∧ φ'.Denotes s i := by
  cases hφ with
  | clock =>
    refine ⟨_, _, _, rfl, rfl, rfl, fun ls hls => ?_⟩
    simp only [Store.fields, List.map_eq_cons_iff, List.map_eq_nil_iff] at hls
    obtain ⟨size, _, rfl, hsize, name, _, rfl, hname, rfl⟩ := hls
    refine ⟨.clock size name, rfl, rfl, hname ▸ .clock ?_⟩
    rw [hsize, Numeral.unsigned_toString]
  | int =>
    refine ⟨_, _, _, rfl, rfl, rfl, fun ls hls => ?_⟩
    simp only [Store.fields, List.map_eq_cons_iff, List.map_eq_nil_iff] at hls
    obtain ⟨size, _, rfl, hsize, min, _, rfl, hmin, max, _, rfl, hmax, initial, _, rfl, hinitial,
      name, _, rfl, hname, rfl⟩ := hls
    refine ⟨.int size min max initial name, rfl, rfl, hname ▸ .int ?_ ?_ ?_ ?_⟩
    · rw [hsize, Numeral.unsigned_toString]
    · rw [hmin, Numeral.signed_toString]
    · rw [hmax, Numeral.signed_toString]
    · rw [hinitial, Numeral.signed_toString]
  | event =>
    refine ⟨_, _, _, rfl, rfl, rfl, fun ls hls => ?_⟩
    simp only [Store.fields, List.map_eq_cons_iff, List.map_eq_nil_iff] at hls
    obtain ⟨name, _, rfl, hname, rfl⟩ := hls
    exact ⟨.event name, rfl, rfl, hname ▸ .event name⟩
  | process =>
    refine ⟨_, _, _, rfl, rfl, rfl, fun ls hls => ?_⟩
    simp only [Store.fields, List.map_eq_cons_iff, List.map_eq_nil_iff] at hls
    obtain ⟨name, _, rfl, hname, rfl⟩ := hls
    exact ⟨.process name, rfl, rfl, hname ▸ .process name⟩
  | location howner =>
    refine ⟨_, _, _, rfl, rfl, rfl, fun ls hls => ?_⟩
    simp only [Store.fields, List.map_eq_cons_iff, List.map_eq_nil_iff] at hls
    obtain ⟨owner, _, rfl, howner', name, _, rfl, hname, rfl⟩ := hls
    refine ⟨.location owner name, rfl, rfl, hname ▸ .location ?_⟩
    rw [howner', ht.nameOf_eq rfl (hext.ref? howner), howner]
  | edge howner htarget hsource hlabel =>
    refine ⟨_, _, _, rfl, rfl, rfl, fun ls hls => ?_⟩
    simp only [Store.fields, List.map_eq_cons_iff, List.map_eq_nil_iff] at hls
    obtain ⟨owner, _, rfl, howner', target, _, rfl, htarget', source, _, rfl, hsource', label, _,
      rfl, hlabel', rfl⟩ := hls
    refine ⟨.edge owner target source label, rfl, rfl, .edge ?_ ?_ ?_ ?_⟩
    · rw [howner', ht.nameOf_eq rfl (hext.ref? howner), howner]
    · rw [htarget', ht.nameOf_eq rfl (hext.ref? htarget), htarget]
    · rw [hsource', ht.nameOf_eq rfl (hext.ref? hsource), hsource]
    · rw [hlabel', ht.nameOf_eq rfl (hext.ref? hlabel), hlabel]
  | sync => exact absurd rfl hsync

/-- **Reading a line.** Words with the tokens of a printed declaration are read as a phrase that
denotes the same item, as far as places do not count. -/
theorem leads_line {s t : Store} {log : List Declaration} (ht : t.Keeps log) (hext : s.Extends t)
    {φ : Phrase} {d : Declaration} (hnames : φ.HasNames) (hφ : φ.Denotes s d.item)
    (has : ∀ a ∈ d.attributes.entries, a.IsPrintable) {ws : List Word}
    (hws : ws.map Word.shape = t.lineTokens d) :
    ∃ φ' i' c es, φ'.Denotes s i' ∧ i'.withoutSpans = d.item.withoutSpans ∧
      (⟨es⟩ : Attributes).withoutSpans = d.attributes.withoutSpans ∧
      Leads Phrase.opening ws φ'.parts (.list c φ' es .closed) := by
  by_cases hsync : d.item.kind = .sync
  · obtain ⟨item, attributes, span⟩ := d
    cases hφ with
    | @sync links constraints hlinks =>
      have hcontent := map_content_eq ht (hlinks.imp fun _ _ => Link.Denotes.mono hext)
      have hshapes : t.fieldTokens (.sync constraints) =
          (links.map Link.content).map linkShapes := by
        rw [← hcontent, List.map_map]
        rfl
      rw [Store.lineTokens, hshapes] at hws
      have hrule : Phrase.rules.lookup .sync = some (.links (.declaration .sync) Phrase.sync) := rfl
      obtain ⟨links', es, hne, hlinks', hes, hleads⟩ :=
        leads_linksLine .start hrule (by simpa using hnames.1) has hws
      obtain ⟨constraints', hforall, hmap⟩ := exists_forall₂_denotes hlinks hlinks'
      exact ⟨.sync links', .sync constraints', _, es, .sync hforall, congrArg Item.sync hmap, hes,
        hleads⟩
    | _ => exact absurd hsync (by simp [Item.kind])
  · obtain ⟨c, slots, fill, hrule, hlen, htokens, hdenotes⟩ := denotes_of_fields ht hext hφ hsync
    rw [Store.lineTokens, htokens] at hws
    obtain ⟨ls, φ', es, hls, hfill, hes, hleads⟩ := leads_fieldsLine .start hrule hlen has hws
    obtain ⟨φ'', hfill', hparts, hφ''⟩ := hdenotes ls hls
    obtain rfl : φ' = φ'' := Option.some.inj (hfill.symm.trans hfill')
    exact ⟨φ', d.item, c, es, hφ'', rfl, hes, hparts ▸ hleads⟩

end TimedNet
