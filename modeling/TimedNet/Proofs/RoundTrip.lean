/-
  TimedNet.Proofs.RoundTrip

  A network that was read from a text is read again from what it prints. The store grows by the
  printed lines as it grew by those of the text: one printed line adds the declaration that it was
  printed from (`enter_printed`), and so does a run of them (`readDeclarations_printed`).
-/
import TimedNet.Proofs.Session.PrintedLine
import TimedNet.Proofs.Session.Soundness

namespace TimedNet

-- ============================================================================
-- Scanning a printed network
-- ============================================================================

namespace System

/-- The tokens of the line that declares the network. -/
def headerTokens (n : System) : List Shape := lineShapes .system [[(.ident, n.name)]] n.attributes

end System

namespace Store

/-- The tokens of printed lines. -/
def linesTokens (s : Store) (ds : List Declaration) : List Shape :=
  ds.flatMap fun d => s.lineTokens d ++ [symbolShape '\n']

/-- The lines of declarations that a store grew by. -/
theorem scans_lines {check : BoundsCheck} {s t : Store} {ds : List Declaration}
    (h : Grows check s ds t) {log : List Declaration} (ht : t.Keeps log) :
    Scans .outside (String.join (ds.map fun d => t.line d ++ "\n")).toList (t.linesTokens ds) := by
  induction h with
  | nil s => exact .nil .outside
  | @cons s t d ds hd hrest ih =>
    obtain ⟨φ, hnames, hφ⟩ := hd.phrase
    have hext := (extends_push hd.fault).trans hrest.extend
    have hline := scans_line ht hnames (hφ.mono hext) hd.attributes (ih ht)
    simpa [linesTokens] using hline

end Store

/-- **Scanning a printed network.** Its text is scanned as the tokens of its first line and, line by
line, of its declarations. -/
theorem scans_text {check : BoundsCheck} {n : System} {ds : List Declaration}
    (h : Grows check .empty ds n.store) (hname : IsName n.name)
    (has : ∀ a ∈ n.attributes.entries, a.IsPrintable) :
    Scans .outside n.text.toList
      (n.headerTokens ++ symbolShape '\n' :: n.store.linesTokens ds) := by
  have hkeeps := h.keeps Store.keeps_empty
  rw [List.nil_append] at hkeeps
  have hlines := Store.scans_lines h hkeeps
  have hfields : List.Forall₂ Spells [n.name] [[(.ident, n.name)]] :=
    .cons (spells_name hname) .nil
  have hheader := Scans.line .system hfields has hlines
  have htext : n.text.toList =
      (Keyword.system.text ++ String.join ([n.name].map (":" ++ ·)) ++ n.attributes.text
        ++ "\n").toList ++ (String.join (ds.map fun d => n.store.line d ++ "\n")).toList := by
    rw [System.text, hkeeps.declarations_eq]
    simp [System.headerLine, Function.comp_def, Keyword.text]
  rw [htext]
  exact hheader

-- ============================================================================
-- Reading a printed network
-- ============================================================================

/-- **One printed line.** It is entered as the declaration that it was printed from. -/
theorem enter_printed {check : BoundsCheck} {s s' t : Store} {log : List Declaration}
    (ht : t.Keeps log) (hext : s.Extends t) (hs' : s'.withoutSpans = s.withoutSpans)
    {d : Declaration} (hd : Declarable check s d) {line rest : List Word}
    (hline : line.map Word.shape = t.lineTokens d) (hrest : AtLineEnd rest) {close : Word}
    (hclose : close.kind.endsDeclaration = true) :
    (∀ e ∈ (s'.enter check close (line ++ rest)).diagnostics, e.isError = false) ∧
      (s'.enter check close (line ++ rest)).store.withoutSpans = (s.push d).withoutSpans ∧
      (s'.enter check close (line ++ rest)).rest = passLineEnd rest := by
  obtain ⟨φ, hnames, hφ⟩ := hd.phrase
  have hnamesEq : s.names = s'.names := (Store.names_eq_of_withoutSpans hs').symm
  have hφ' : φ.Denotes s' d.item := hφ.mono (Store.extends_of_names_eq hnamesEq)
  have hext' : s'.Extends t := (Store.extends_of_names_eq hnamesEq.symm).trans hext
  obtain ⟨φ', i', c, es, hdenotes, hitem, hes, hleads⟩ :=
    leads_line ht hext' hnames hφ' hd.attributes hline
  obtain ⟨houtcome, hparts, hleft⟩ := hleads.outcome hrest hclose
  have hnotes : (Phrase.opening.read (line ++ rest)).parts.filterMap (Part.fault? s') = [] := by
    rw [hparts, List.filterMap_eq_nil_iff]
    exact hdenotes.fault?_eq_none
  have hsized : i'.IsSized := by
    rw [← Item.isSized_withoutSpans, hitem, Item.isSized_withoutSpans]
    exact hd.isSized
  have hbounds : check = .error → i'.IsInBounds := by
    rw [← Item.isInBounds_withoutSpans, hitem, Item.isInBounds_withoutSpans]
    exact hd.isInBounds
  have hfault : s'.fault? i' = none := by
    rw [← Store.fault?_withoutSpans, hs', hitem, Store.fault?_withoutSpans]
    exact hd.fault
  let span := (Phrase.opening.read (line ++ rest)).span close
  obtain ⟨a, haccept, hstore⟩ := (Store.accept_eq_ok_iff hdenotes.fault?_eq_none check ⟨es⟩ span
    (s'.push ⟨i', ⟨es⟩, span⟩)).mpr ⟨i', hdenotes, hsized, hbounds, hfault, rfl⟩
  have hentry : s'.enter check close (line ++ rest) =
      ⟨a.warning.toList, s'.push ⟨i', ⟨es⟩, span⟩, passLineEnd rest⟩ := by
    simp only [Store.enter, houtcome, hnotes, List.nil_append, haccept, hstore, Reading.left, hleft,
      span]
  rw [hentry]
  refine ⟨fun w hw => ?_, ?_, rfl⟩
  · exact (Store.isWarning_of_accept haccept (Option.mem_toList.mp hw)).1
  · have hdeclaration : (⟨i', ⟨es⟩, span⟩ : Declaration).withoutSpans = d.withoutSpans := by
      rw [Declaration.withoutSpans, Declaration.withoutSpans, hitem, hes]
    rw [Store.withoutSpans_push, Store.withoutSpans_push, hs', hdeclaration]

namespace Session

/-- A session that has found no error is within every limit. -/
theorem isOverLimit_eq_false {u : Session} (h : u.errorCount = 0) : u.isOverLimit = false := by
  unfold isOverLimit
  split
  · rw [h]
    exact decide_eq_false (Nat.not_lt_zero _)
  · rfl

/-- A keyword ends no line. -/
theorem skipLineEnds_keyword {w : Word} {k : Keyword} (hw : w.kind = .keyword k) (ws : List Word) :
    skipLineEnds (w :: ws) = w :: ws :=
  List.dropWhile_cons_of_neg (by simp [Word.isLineEnd, hw])

/-- **Printed lines.** They are entered one after the other, without an error. -/
theorem readDeclarations_printed {check : BoundsCheck} {s t : Store} {ds : List Declaration}
    (h : Grows check s ds t) {log : List Declaration} (ht : t.Keeps log) {s' : Store}
    (hs' : s'.withoutSpans = s.withoutSpans) {u : Session} (hcheck : u.options.boundsCheck = check)
    (hwords : u.words.map Word.shape = t.linesTokens ds)
    (hclose : u.close.kind.endsDeclaration = true) (hcount : u.report.errorCount = 0) :
    (u.readDeclarations s').1.withoutSpans = t.withoutSpans ∧
      (u.readDeclarations s').2.report.errorCount = 0 ∧
      (u.readDeclarations s').2.isFatal = u.isFatal := by
  induction h generalizing u s' with
  | nil s =>
    have hnil : u.words = [] := List.map_eq_nil_iff.mp hwords
    rw [readDeclarations_of_nil s' (by rw [hnil]; rfl)]
    exact ⟨hs', hcount, rfl⟩
  | @cons s t d ds hd hrest ih =>
    have hext := (Store.extends_push hd.fault).trans hrest.extend
    obtain ⟨front, more, hall, hfront, hmore⟩ := List.map_eq_append_iff.mp hwords
    obtain ⟨line, last, rfl, hline, hlast⟩ := List.map_eq_append_iff.mp hfront
    obtain ⟨e, last, rfl, he, hnil⟩ := List.map_eq_cons_iff.mp hlast
    obtain rfl := List.map_eq_nil_iff.mp hnil
    have hend : e.isLineEnd = true := beq_iff_eq.mpr (kind_of_shape he)
    obtain ⟨hclean, hstore, hleft⟩ :=
      enter_printed ht hext hs' hd hline (atLineEnd_cons hend more) hclose
    obtain ⟨w, ws, rfl, hw, -⟩ := List.map_eq_cons_iff.mp hline
    have hkind : w.kind = .keyword d.kind.keyword := kind_of_shape hw
    have hskip : skipLineEnds u.words = w :: (ws ++ e :: more) := by
      rw [hall, List.append_assoc]
      exact skipLineEnds_keyword hkind _
    let entry := s'.enter u.options.boundsCheck u.close (w :: (ws ++ e :: more))
    let next := (u.say entry.diagnostics).goTo entry.rest
    have hentry : entry = s'.enter check u.close (w :: ws ++ e :: more) := by
      simp only [entry, hcheck, List.cons_append]
    rw [← hentry] at hclean hstore hleft
    have hnext : next.report.errorCount = 0 := by
      have hzero : entry.diagnostics.countP Diagnostic.isError = 0 := by
        simpa [List.countP_eq_zero] using hclean
      show (u.say entry.diagnostics).report.errorCount = 0
      rw [errorCount_say, hcount, hzero]
    have hlimit : next.isOverLimit = false :=
      isOverLimit_eq_false (by rw [errorCount, hnext, Nat.zero_sub])
    have hwordsNext : next.words.map Word.shape = t.linesTokens ds := by
      show entry.rest.map Word.shape = _
      rw [hleft, passLineEnd, if_pos hend]
      exact hmore
    have hloop : u.readDeclarations s' = next.readDeclarations entry.store := by
      rw [readDeclarations_of_cons s' hskip, if_neg (by simp [hkind])]
      exact if_neg (Bool.eq_false_iff.mp hlimit)
    rw [hloop]
    exact ih ht hstore (u := next) hcheck hwordsNext hclose hnext

/-- **The printed declaration of the network.** It is read back, with the name and the attributes
that it was printed from. -/
theorem readHeader_printed {n : System} (has : ∀ a ∈ n.attributes.entries, a.IsPrintable)
    {u : Session} {line more : List Word} {e : Word} (hwords : u.words = line ++ e :: more)
    (hline : line.map Word.shape = n.headerTokens) (he : e.isLineEnd = true)
    (hclose : u.close.kind.endsDeclaration = true) :
    ∃ m : System, u.readHeader = (some m, u.goTo more) ∧ m.name = n.name ∧
      m.attributes.withoutSpans = n.attributes.withoutSpans := by
  have hrule : Header.rules.lookup .system =
      some (.fields .header [.name] fun name : Lexeme => name) := rfl
  have hshapes : n.headerTokens =
      lineShapes .system (slotShapes [.name] [n.name]) n.attributes := rfl
  rw [hshapes] at hline
  obtain ⟨ls, name, es, htexts, hfill, hes, hleads⟩ := leads_fieldsLine .header hrule rfl has hline
  obtain ⟨name', _, rfl, hname', hnil⟩ := List.map_eq_cons_iff.mp htexts
  obtain rfl := List.map_eq_nil_iff.mp hnil
  obtain rfl : name' = name := Option.some.inj hfill
  obtain ⟨houtcome, -, hleft⟩ := hleads.outcome (atLineEnd_cons he more) hclose
  obtain ⟨w, ws, rfl, hw, -⟩ := List.map_eq_cons_iff.mp hline
  have hskip : skipLineEnds u.words = w :: ws ++ e :: more := by
    rw [hwords]
    exact skipLineEnds_keyword (kind_of_shape hw) _
  have houtcome' : (Header.opening.read (skipLineEnds u.words)).outcome u.close =
      .ok (name', ⟨es⟩) := by
    rw [hskip]
    exact houtcome
  have hleft' : (Header.opening.read (skipLineEnds u.words)).left .header u.close = more := by
    rw [Reading.left, houtcome', hskip]
    show passLineEnd ((Place.opening .header Header.rules).read (w :: ws ++ e :: more)).rest = more
    rw [hleft, passLineEnd, if_pos he]
  refine ⟨.new name'.text ⟨es⟩ ((Header.opening.read (skipLineEnds u.words)).span u.close), ?_,
    hname', hes⟩
  unfold readHeader
  dsimp only
  rw [houtcome', hleft']

/-- What a session that has a printed network before it gives out. -/
theorem read_printed {n : System} {ds : List Declaration} {s : Session}
    (h : Grows s.options.boundsCheck .empty ds n.store)
    (has : ∀ a ∈ n.attributes.entries, a.IsPrintable)
    (hwords : s.words.map Word.shape =
      n.headerTokens ++ symbolShape '\n' :: n.store.linesTokens ds)
    (hclose : s.close.kind.endsDeclaration = true) (hcount : s.report.errorCount = 0)
    (hfatal : s.isFatal = false) :
    ∃ m, s.read.1 = some m ∧ m.withoutSpans = n.withoutSpans := by
  have hkeeps := h.keeps Store.keeps_empty
  obtain ⟨line, more, hall, hline, hmore⟩ := List.map_eq_append_iff.mp hwords
  obtain ⟨e, more, rfl, he, hmore⟩ := List.map_eq_cons_iff.mp hmore
  have hend : e.isLineEnd = true := beq_iff_eq.mpr (kind_of_shape he)
  obtain ⟨m, hheader, hname, hattributes⟩ := readHeader_printed has hall hline hend hclose
  have hempty : Store.empty.withoutSpans = Store.empty.withoutSpans := rfl
  obtain ⟨hstore, hloopCount, hloopFatal⟩ :=
    readDeclarations_printed (u := s.goTo more) h hkeeps hempty rfl hmore hclose hcount
  have hbuild : s.build = ((s.goTo more).readDeclarations .empty).2.keep
      (some { m with store := ((s.goTo more).readDeclarations .empty).1 }) := by
    rw [build, hheader]
  have hzero : s.build.errorCount = 0 := by
    rw [hbuild]
    show ((s.goTo more).readDeclarations .empty).2.report.errorCount - _ = 0
    rw [hloopCount, Nat.zero_sub]
  have hnotFatal : s.build.isFatal = false := by
    rw [hbuild]
    exact hloopFatal.trans hfatal
  refine ⟨{ m with store := ((s.goTo more).readDeclarations .empty).1 }, ?_, ?_⟩
  · unfold read
    dsimp only
    rw [hnotFatal, hzero, hbuild]
    rfl
  · simp only [System.withoutSpans, hname, hattributes, hstore]

end Session

/-- **Printing and reading.** A network that was read from a text is read again from what it prints,
with the same options and without an error. But for the places of its parts in the text it is the
same network, so it prints the same. -/
theorem parse_text {source : String} {options : Options} {n : System}
    (h : (parse source options).system = some n) :
    ∃ m, (parse n.text options).system = some m ∧ (parse n.text options).errorCount = 0 ∧
      m.withoutSpans = n.withoutSpans ∧ m.text = n.text := by
  obtain ⟨hname, has, ds, hgrows⟩ := sound_parse h
  have hscans := scans_text hgrows hname has
  let session := Session.new (Token.scan n.text) (.ofText n.text) options .empty
  have hwords : session.words.map Word.shape =
      n.headerTokens ++ symbolShape '\n' :: n.store.linesTokens ds := by
    show ((Token.scan n.text).map (Token.word (.ofText n.text))).map Word.shape = _
    rw [List.map_map]
    exact hscans 0
  obtain ⟨m, hm, hsame⟩ := Session.read_printed (s := session) hgrows has hwords rfl rfl rfl
  obtain ⟨added, hsays, hsome⟩ :=
    Session.says_new_read (Token.scan n.text) (.ofText n.text) options .empty
  refine ⟨m, hm, ?_, hsame, ?_⟩
  · have hentries : (parse n.text options).diagnostics = added := hsays.entries
    have hclean : ∀ d ∈ added, d.isError = false := hsome.mp (by rw [hm]; rfl)
    rw [Parsed.errorCount, Parsed.errors, hentries, List.length_eq_zero_iff, List.filter_eq_nil_iff]
    intro d hd
    simp [hclean d hd]
  · rw [← m.text_withoutSpans, hsame, n.text_withoutSpans]

/-- A text with a declaration of every kind, keywords as keys, a `#` in a value, and blanks around
values. -/
def sampleSource : String :=
  "# a network\n\n"
    ++ "system : s \x7b clock : a # b : int: \x7d\n"
    ++ "clock:01:x # one\n"
    ++ "int:2:-3:5:000:i\x7b\x7d\n"
    ++ "process:P\n"
    ++ "event:e\n"
    ++ "location:P:l\x7binitial:\x7d\n"
    ++ "edge:P:l:l:e\x7bdo: x=1 \x7d\n"
    ++ "sync:P@e?:P@e\n"

/-- What the network of `sampleSource` prints. -/
def sampleText : String :=
  "system:s\x7bclock:a # b : int:\x7d\n"
    ++ "clock:1:x\x7b\x7d\n"
    ++ "int:2:-3:5:0:i\x7b\x7d\n"
    ++ "process:P\x7b\x7d\n"
    ++ "event:e\x7b\x7d\n"
    ++ "location:P:l\x7binitial:\x7d\n"
    ++ "edge:P:l:l:e\x7bdo:x=1\x7d\n"
    ++ "sync:P@e?:P@e\x7b\x7d\n"

theorem parse_text_sampleSource :
    ∃ n m, (parse sampleSource {}).system = some n ∧ n.text = sampleText ∧
      (parse sampleText {}).system = some m ∧ m.withoutSpans = n.withoutSpans ∧
      m.text = sampleText := by
  have hprints : (parse sampleSource {}).system.map System.text = some sampleText := by
    decide +kernel
  obtain ⟨n, hn, hprints⟩ := Option.map_eq_some_iff.mp hprints
  obtain ⟨m, hm, -, hsame, htext⟩ := parse_text hn
  rw [hprints] at hm htext
  exact ⟨n, m, hn, hprints, hm, hsame, htext⟩

end TimedNet
