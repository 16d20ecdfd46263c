/-
  TimedNet.Proofs.Session.WellFormed

  What a network that was read is like, in terms of the characters of its names and values and of
  the numbers of its variables (`System.IsWellFormed`), and how it is written: behind the first
  line of its text, line after line declares one of its declarations (`Store.IsWrittenAs`), and a
  synchronization has the constraints of its line, one for one.
-/
import TimedNet.Proofs.Grammar.Spelling
import TimedNet.Proofs.Session.ByLine
import TimedNet.Proofs.Session.PrintedLine

namespace TimedNet

-- ============================================================================
-- Well-formed networks
-- ============================================================================

/-- A letter or `_`, followed by letters, digits, `_` and `.`; letters and digits are those of
ASCII. -/
def IsIdentifier (text : String) : Prop :=
  ∃ c tail, text.toList = c :: tail ∧ (c.isAlpha ∨ c = '_') ∧
    ∀ d ∈ tail, d.isAlphanum ∨ d = '_' ∨ d = '.'

/-- What may be declared is an identifier, but no keyword. -/
structure IsDeclarableName (text : String) : Prop where
  isIdentifier : IsIdentifier text
  noKeyword : ∀ k : Keyword, text ≠ k.text

/-- The key of an attribute may be a keyword; a value has no blanks around it, and none of the
characters that end one. -/
structure Attribute.IsWellFormed (a : Attribute) : Prop where
  key : IsIdentifier a.key
  leading : ∀ c ∈ a.value.toList.head?, Text.isBlank c = false
  trailing : ∀ c ∈ a.value.toList.getLast?, Text.isBlank c = false
  characters : ∀ c ∈ a.value.toList, c ≠ ':' ∧ c ≠ '\x7b' ∧ c ≠ '\x7d' ∧ c ≠ '\n'

/-- Variables have a size, and where bounds are checked strictly they hold; a synchronization has
constraints. -/
def Item.IsWellFormed (check : BoundsCheck) : Item → Prop
  | .clock _ size => 1 ≤ size.toNat
  | .int _ size min max initial =>
    1 ≤ size.toNat ∧ (check = .error → min ≤ initial ∧ initial ≤ max)
  | .sync constraints => constraints ≠ []
  | _ => True

structure Declaration.IsWellFormed (check : BoundsCheck) (d : Declaration) : Prop where
  name : ∀ name, d.name? = some name → IsDeclarableName name
  item : d.item.IsWellFormed check
  attributes : ∀ a ∈ d.attributes.entries, a.IsWellFormed

structure System.IsWellFormed (check : BoundsCheck) (n : System) : Prop where
  name : IsDeclarableName n.name
  attributes : ∀ a ∈ n.attributes.entries, a.IsWellFormed
  declarations : ∀ d ∈ n.store.declarations, d.IsWellFormed check

-- ============================================================================
-- Written declarations
-- ============================================================================

namespace Store

/-- A constraint is written as `:`, the name of its process, `@` and the name of its event; behind a
weak one there is a `?`. -/
structure WritesConstraint (s : Store) (ws : List Word) (c : SyncConstraint) : Prop where
  kinds : kinds ws = [.colon, .ident, .atSign, .ident] ++ match c.strength with
    | .strong => []
    | .weak => [.question]
  process : ws[1]?.map Word.text = some (s.nameOf c.process)
  event : ws[3]?.map Word.text = some (s.nameOf c.event)

/-- A declaration is written behind the keyword of its kind, where the line begins. The constraints
of a synchronization are all that stands between the keyword and the attributes. -/
structure IsWrittenAs (s : Store) (line : List Word) (d : Declaration) : Prop where
  keyword : line.head?.map Word.kind = some (.keyword d.kind.keyword)
  start : line.head?.map (fun w => w.span.start) = some d.span.start
  constraints : ∀ cs, d.item = .sync cs → ∃ runs list, line.tail = runs.flatten ++ list ∧
    IsListOrEmpty list ∧ List.Forall₂ s.WritesConstraint runs cs

end Store

-- ============================================================================
-- Names and values
-- ============================================================================

theorem isIdentifier_of_isWord {text : String} (h : IsWord text) : IsIdentifier text := by
  obtain ⟨c, tail, rfl, hc, htail⟩ := h
  refine ⟨c, tail, String.toList_ofList, ?_, fun d hd => ?_⟩
  · simpa [Token.isNameStart] using hc
  · simpa [Token.isNamePart, or_assoc] using htail d hd

theorem isDeclarableName_of_isName {text : String} (h : IsName text) : IsDeclarableName text := by
  refine ⟨isIdentifier_of_isWord h.1, ?_⟩
  rintro k rfl
  have hnone : Keyword.ofText? k.text = none := h.2
  cases k <;> exact absurd hnone (by decide)

/-- A text that trimming leaves alone does not begin or end with a blank. -/
theorem isBlank_of_trimChars_eq {cs : List Char} (h : Text.trimChars cs = cs) :
    (∀ c ∈ cs.head?, Text.isBlank c = false) ∧ ∀ c ∈ cs.getLast?, Text.isBlank c = false := by
  rw [Text.trimChars_eq] at h
  constructor
  · intro c hc
    have hprefix := List.rdropWhile_prefix Text.isBlank (cs.dropWhile Text.isBlank)
    rw [h] at hprefix
    obtain ⟨tail, rfl⟩ := List.head?_eq_some_iff.mp hc
    obtain ⟨more, hmore⟩ := hprefix
    have hhead := List.head?_dropWhile_not Text.isBlank (c :: tail)
    rw [← hmore] at hhead
    simpa using hhead
  · intro c hc
    have hlast := List.rdropWhile_last_not Text.isBlank (cs.dropWhile Text.isBlank)
    rw [h] at hlast
    obtain ⟨init, rfl⟩ := List.getLast?_eq_some_iff.mp hc
    simpa using hlast (by simp)

theorem isWellFormed_of_isPrintable {a : Attribute} (h : a.IsPrintable) : a.IsWellFormed := by
  obtain ⟨hkey, hvalue, htrim⟩ := h
  have hchars : Text.trimChars a.value.toList = a.value.toList := by
    rw [← Text.toList_trim, htrim]
  obtain ⟨hleading, htrailing⟩ := isBlank_of_trimChars_eq hchars
  refine ⟨isIdentifier_of_isWord hkey, hleading, htrailing, fun c hc => ?_⟩
  simpa [Token.isValuePart, and_assoc] using hvalue c hc

/-- A declaration for which there is a phrase is well-formed. -/
theorem Declarable.isWellFormed {check : BoundsCheck} {s : Store} {d : Declaration}
    (h : Declarable check s d) : d.IsWellFormed check := by
  obtain ⟨⟨φ, hnames, hdenotes⟩, hsized, hbounds, -, hattributes⟩ := h
  refine ⟨?_, ?_, fun a ha => isWellFormed_of_isPrintable (hattributes a ha)⟩
  · intro name hname
    apply isDeclarableName_of_isName
    have hitem : d.item.name? = some name := hname
    generalize d.item = i at hdenotes hitem
    cases hdenotes with
    | edge => exact absurd hitem (by simp [Item.name?, Item.key?])
    | sync => exact absurd hitem (by simp [Item.name?, Item.key?])
    | location =>
      obtain rfl := Option.some.inj hitem
      exact hnames.2
    | _ =>
      obtain rfl := Option.some.inj hitem
      exact hnames
  · generalize d.item = i at hdenotes hsized hbounds
    have hsize : ∀ {n : UInt32}, n ≠ 0 → 1 ≤ n.toNat := fun {n} hn =>
      Nat.one_le_iff_ne_zero.mpr fun h0 => hn (UInt32.toNat_inj.mp h0)
    cases hdenotes with
    | clock => exact hsize hsized
    | int => exact ⟨hsize hsized, hbounds⟩
    | sync hlinks =>
      rintro rfl
      exact hnames.1 (List.forall₂_nil_right_iff.mp hlinks)
    | _ => trivial

-- ============================================================================
-- One line
-- ============================================================================

/-- The kind of what a phrase declares. -/
def Phrase.kind : Phrase → Kind
  | .clock .. => .clock
  | .int .. => .int
  | .event .. => .event
  | .process .. => .process
  | .location .. => .location
  | .edge .. => .edge
  | .sync .. => .sync

theorem Phrase.Denotes.kind_eq {s : Store} {φ : Phrase} {i : Item} (h : φ.Denotes s i) :
    i.kind = φ.kind := by
  cases h <;> rfl

/-- A rule makes up phrases of the kind that its keyword stands for. -/
theorem keyword_of_spelled {k : Keyword} {r : Rule Phrase}
    (hlookup : Phrase.rules.lookup k = some r) {body : List Word} {φ : Phrase}
    (h : r.Spelled body φ) : k = φ.kind.keyword := by
  refine Rule.Spelled.makes (Q := fun _ => True) (P := fun φ => k = φ.kind.keyword) h (by simp) ?_
  cases k with
  | system =>
    have hnone : Phrase.rules.lookup .system = none := rfl
    exact absurd (hnone.symm.trans hlookup) (by simp)
  | _ =>
    obtain rfl := Option.some.inj hlookup
    simp [Rule.Makes, FillingMakes, Phrase.kind, Kind.keyword]

/-- Behind the keyword of a synchronization there are its links. -/
theorem linksSpelled_of_sync {k : Keyword} {r : Rule Phrase}
    (hlookup : Phrase.rules.lookup k = some r) {body : List Word} {links : List Link}
    (h : r.Spelled body (.sync links)) : LinksSpelled links body := by
  obtain rfl : k = .sync := keyword_of_spelled hlookup h
  obtain rfl := Option.some.inj hlookup
  obtain ⟨links', -, hspelled, hjoin⟩ := h
  rwa [Phrase.sync.inj hjoin]

namespace Store

variable {t : Store} {log : List Declaration}

/-- A link is how the constraint is written that it stands for. -/
theorem writesConstraint (ht : t.Keeps log) {l : Link} {run : List Word} (hl : l.Spelled run)
    {c : SyncConstraint} (hc : l.Denotes t c) : t.WritesConstraint run c := by
  have hprocess := ht.nameOf_eq rfl hc.process
  have hevent := ht.nameOf_eq rfl hc.event
  have hstrength := hc.strength
  cases hl with
  | strong hcolon howner hsign hlabel =>
    refine ⟨?_, congrArg some hprocess.symm, congrArg some hevent.symm⟩
    have hstrong : c.strength = .strong := hstrength
    simp [kinds, hstrong, hcolon, howner, hsign, hlabel]
  | weak hcolon howner hsign hlabel hmark =>
    refine ⟨?_, congrArg some hprocess.symm, congrArg some hevent.symm⟩
    have hweak : c.strength = .weak := hstrength
    simp [kinds, hweak, hcolon, howner, hsign, hlabel, hmark]

theorem forall₂_writesConstraint (ht : t.Keeps log) {links : List Link} {runs : List (List Word)}
    (hruns : List.Forall₂ Link.Spelled links runs) {cs : List SyncConstraint}
    (hcs : List.Forall₂ (Link.Denotes t) links cs) : List.Forall₂ t.WritesConstraint runs cs := by
  induction hruns generalizing cs with
  | nil =>
    cases hcs
    exact .nil
  | cons hl _ ih =>
    cases hcs with
    | cons hc hcs => exact .cons (writesConstraint ht hl hc) (ih hcs)

/-- **One line.** A line that was read is how what it denotes is written. -/
theorem isWrittenAs_of_outcome (ht : t.Keeps log) {line : List Word} (hline : InLine line)
    {stop : Word} {φ : Phrase} {as : Attributes}
    (houtcome : (Phrase.opening.read line).outcome stop = .ok (φ, as)) {i : Item}
    (hi : φ.Denotes t i) :
    t.IsWrittenAs line ⟨i, as, (Phrase.opening.read line).span stop⟩ := by
  have hspelled : Spelled Phrase.rules (Phrase.opening.read line).words φ :=
    Place.spelled_of_outcome houtcome
  have hwords := Place.words_of_outcome hline houtcome
  have hstart : ((Phrase.opening.read line).span stop).start =
      (line.headD ((Phrase.opening.read line).stop stop)).span.start := by
    rw [Reading.span, hwords]
  rw [hwords] at hspelled
  obtain ⟨first, k, r, body, list, hsplit, hkind, hlookup, hbody, hlist⟩ := hspelled
  have hkeyword := keyword_of_spelled hlookup hbody
  subst hsplit
  refine ⟨?_, congrArg some hstart.symm, ?_⟩
  · show some first.kind = some (.keyword i.kind.keyword)
    rw [hkind, hi.kind_eq, hkeyword]
  · intro cs hcs
    obtain rfl : i = .sync cs := hcs
    cases hi with
    | sync hlinks =>
      obtain ⟨runs, hruns, rfl⟩ := linksSpelled_of_sync hlookup hbody
      exact ⟨runs, list, rfl, hlist, forall₂_writesConstraint ht hruns hlinks⟩

-- ============================================================================
-- Lines one after the other
-- ============================================================================

/-- What a line is read as: its phrase stands for what is declared, under the names of a store. -/
structure Reads (t : Store) (l : Line) (d : Declaration) : Prop where
  phrase : ∃ φ, (Phrase.opening.read l.words).outcome l.stop = .ok (φ, d.attributes) ∧
    φ.Denotes t d.item
  span : d.span = (Phrase.opening.read l.words).span l.stop

/-- **A run of lines.** If nothing that is said about them is an error, each of them is read as one
declaration that the store takes. -/
theorem reads_enterLines {check : BoundsCheck} {s : Store} (hs : s.Keeps log) {ls : List Line}
    (hlexical : ∀ l ∈ ls, Lexical true (l.words.map Word.shape))
    (hclean : ∀ d ∈ (s.enterLines check ls).1, d.isError = false) :
    ∃ ds, Grows check s ds (s.enterLines check ls).2 ∧
      List.Forall₂ (s.enterLines check ls).2.Reads ls ds := by
  induction ls generalizing s log with
  | nil => exact ⟨[], .nil s, .nil⟩
  | cons l ls ih =>
    obtain ⟨hword, hwords⟩ := List.forall_mem_cons.mp hlexical
    obtain ⟨hfirst, hothers⟩ := List.forall_mem_append.mp hclean
    obtain ⟨φ, as, i, houtcome, hdenotes, hdeclarable, hstore⟩ := denotes_of_enter hword hfirst
    have hfree := hdeclarable.fault
    have hkeeps := keeps_push hs fun key hkey => lookup_eq_none_of_fault hfree hkey
    rw [hstore] at hothers
    obtain ⟨ds, hgrows, hreads⟩ := ih hkeeps hwords hothers
    have hlast : (s.enterLines check (l :: ls)).2 =
        ((s.push ⟨i, as, (Phrase.opening.read l.words).span l.stop⟩).enterLines check ls).2 := by
      rw [enterLines, hstore]
    rw [hlast]
    refine ⟨_ :: ds, .cons hdeclarable hgrows, .cons ?_ hreads⟩
    -- the names that the line was read with are still there at the end
    have hextends := (extends_push hfree).trans hgrows.extend
    exact ⟨⟨φ, houtcome, hdenotes.mono hextends⟩, rfl⟩

/-- If nothing that is said about lines is an error, each of them is how one declaration is written
that the store takes. -/
theorem isWrittenAs_enterLines {check : BoundsCheck} {s : Store} (hs : s.Keeps log)
    {ls : List Line} (hlexical : ∀ l ∈ ls, Lexical true (l.words.map Word.shape))
    (hlines : ∀ l ∈ ls, InLine l.words)
    (hclean : ∀ d ∈ (s.enterLines check ls).1, d.isError = false) :
    ∃ ds, Grows check s ds (s.enterLines check ls).2 ∧
      List.Forall₂ (fun l d => (s.enterLines check ls).2.IsWrittenAs l.words d) ls ds := by
  obtain ⟨ds, hgrows, hreads⟩ := reads_enterLines hs hlexical hclean
  have hinLine := (List.forall₂_and_left ls ds).mpr ⟨hlines, hreads⟩
  refine ⟨ds, hgrows, hinLine.imp ?_⟩
  rintro l ⟨i, as, span⟩ ⟨hline, ⟨φ, houtcome, hdenotes⟩, rfl⟩
  exact isWrittenAs_of_outcome (hgrows.keeps hs) hline houtcome hdenotes

end Store

-- ============================================================================
-- Texts
-- ============================================================================

theorem Grows.isWellFormed {check : BoundsCheck} {s t : Store} {ds : List Declaration}
    (h : Grows check s ds t) : ∀ d ∈ ds, d.IsWellFormed check := by
  induction h with
  | nil s => simp
  | cons hd _ ih => exact List.forall_mem_cons.mpr ⟨hd.isWellFormed, ih⟩

/-- **Networks that are read.** A network that is read from a text is well-formed, and the lines
of the text behind the first are how its declarations are written, one for one and in order. -/
theorem isWellFormed_of_parse {source : String} {options : Options} {n : System}
    (h : (parse source options).system = some n) :
    n.IsWellFormed options.boundsCheck ∧
      ∃ first others,
        lines ((Token.scan source).map (Token.word (.ofText source))) = first :: others ∧
          List.Forall₂ n.store.IsWrittenAs others n.store.declarations := by
  obtain ⟨hname, hattributes, -⟩ := sound_parse h
  obtain ⟨first, others, hlines, hstore, hclean⟩ := lines_of_parse h
  have hmem : ∀ l ∈ others, l ∈ linesOf source.toList := fun l hl =>
    hlines ▸ List.mem_cons_of_mem first hl
  have hlexical : ∀ l ∈ others, Lexical true (l.words.map Word.shape) := fun l hl =>
    lexical_linesOf source.toList l (hmem l hl)
  have hline : ∀ l ∈ others, InLine l.words := fun l hl =>
    inLine_linesOf source.toList l (hmem l hl)
  obtain ⟨ds, hgrows, hwritten⟩ :=
    Store.isWrittenAs_enterLines Store.keeps_empty hlexical hline hclean
  rw [← hstore] at hgrows hwritten
  have hdeclarations : n.store.declarations = ds := (hgrows.keeps Store.keeps_empty).declarations_eq
  refine ⟨⟨isDeclarableName_of_isName hname, ?_, ?_⟩, first.words, others.map Line.words, ?_, ?_⟩
  · exact fun a ha => isWellFormed_of_isPrintable (hattributes a ha)
  · rw [hdeclarations]
    exact hgrows.isWellFormed
  · have hcut : (linesOf source.toList).map Line.words = lines (wordsOf source.toList) :=
      map_words_endedLines _ _
    rw [hlines] at hcut
    exact hcut.symm
  · rw [hdeclarations, List.forall₂_map_left_iff]
    exact hwritten

/-- A network with an attribute whose key is a keyword, checked bounds and a weak constraint. -/
def boundedSample : String :=
  "system : s \x7b clock : a b \x7d # a network\n\n"
    ++ "int:1:-1:5:3:i\n"
    ++ "process:P\n"
    ++ "event:e.1\n"
    ++ "sync:P@e.1?:P@e.1\x7bk:\x7d\n"

theorem isWellFormed_of_parse_boundedSample :
    ∃ n first others,
      (parse boundedSample { boundsCheck := .error }).system = some n ∧
        n.store.declarations.length = 4 ∧ n.IsWellFormed .error ∧
        lines ((Token.scan boundedSample).map (Token.word (.ofText boundedSample))) =
          first :: others ∧
        List.Forall₂ n.store.IsWrittenAs others n.store.declarations := by
  have hreads : (parse boundedSample { boundsCheck := .error }).system.map
      (fun n => n.store.declarations.length) = some 4 := by decide +kernel
  obtain ⟨n, hn, hlength⟩ := Option.map_eq_some_iff.mp hreads
  obtain ⟨hwell, first, others, hlines, hwritten⟩ := isWellFormed_of_parse hn
  exact ⟨n, first, others, hn, hlength, hwell, hlines, hwritten⟩

end TimedNet
