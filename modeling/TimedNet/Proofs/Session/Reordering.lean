/-
  TimedNet.Proofs.Session.Reordering

  The order of the rows of a text matters only in that names are declared before they are referred
  to. What a row declares, told by names, can be read off the row alone (`declared_of_row`). A list
  of declarations is allowed if each of them is sound, no two have the same name, and each stands
  behind those that it refers to; all but the last of these do not depend on the order
  (`Allowed.perm`), so the rows below the first line can be put in any other order that has the last
  (`parse_of_reordering`).
-/
import TimedNet.Proofs.Session.ByName
import TimedNet.Proofs.Session.TrailingText

namespace TimedNet

-- ============================================================================
-- Orders that are allowed
-- ============================================================================

/-- Whether a declaration refers to what another one declares. -/
def NamedDeclaration.RefersTo (m m' : NamedDeclaration) : Prop :=
  ∃ key ∈ m.item.references, m'.item.key? = some key

instance (m m' : NamedDeclaration) : Decidable (m.RefersTo m') :=
  inferInstanceAs (Decidable (∃ key ∈ m.item.references, m'.item.key? = some key))

/-- The names that are declared. -/
def keysOf (ms : List NamedDeclaration) : List NamedKey := ms.filterMap fun m => m.item.key?

theorem mem_keysOf {ms : List NamedDeclaration} {key : NamedKey} :
    key ∈ keysOf ms ↔ ∃ m ∈ ms, m.item.key? = some key := List.mem_filterMap

theorem keysOf_append (ms ms' : List NamedDeclaration) :
    keysOf (ms ++ ms') = keysOf ms ++ keysOf ms' := List.filterMap_append

theorem keysOf_cons (m : NamedDeclaration) (ms : List NamedDeclaration) :
    keysOf (m :: ms) = m.item.key?.toList ++ keysOf ms := by
  rw [keysOf, List.filterMap_cons, keysOf]
  cases m.item.key? <;> rfl

section Allowed

variable {check : BoundsCheck} {taken : List NamedKey} {ms ms' : List NamedDeclaration}

/-- Declarations are allowed if each of them fits behind those before it. -/
theorem allowed_iff : Allowed check taken ms ↔
    ∀ front m back, ms = front ++ m :: back → m.item.Fits check (taken ++ keysOf front) := by
  induction ms generalizing taken with
  | nil => exact iff_of_true trivial (by simp)
  | cons m ms ih =>
    rw [Allowed, ih]
    constructor
    · rintro ⟨hfits, hmore⟩ front m' back hsplit
      cases front with
      | nil =>
        obtain ⟨rfl, -⟩ := List.cons.inj hsplit
        rwa [keysOf, List.filterMap_nil, List.append_nil]
      | cons m'' front =>
        obtain ⟨rfl, hback⟩ := List.cons.inj hsplit
        rw [keysOf_cons, ← List.append_assoc]
        exact hmore front m' back hback
    · intro hall
      refine ⟨?_, fun front m' back hsplit => ?_⟩
      · have hfirst := hall [] m ms rfl
        rwa [keysOf, List.filterMap_nil, List.append_nil] at hfirst
      · have hlater := hall (m :: front) m' back (by rw [hsplit, List.cons_append])
        rwa [keysOf_cons, ← List.append_assoc] at hlater

/-- No name is declared twice. -/
theorem Allowed.nodup (h : Allowed check taken ms) (htaken : taken.Nodup) :
    (taken ++ keysOf ms).Nodup := by
  induction ms generalizing taken with
  | nil => rwa [keysOf, List.filterMap_nil, List.append_nil]
  | cons m ms ih =>
    obtain ⟨hfits, hmore⟩ := h
    rw [keysOf_cons, ← List.append_assoc]
    refine ih hmore ?_
    cases hkey : m.item.key? with
    | none => rwa [Option.toList_none, List.append_nil]
    | some key =>
      rw [Option.toList_some, ← List.concat_eq_append]
      exact htaken.concat (hfits.isFree key hkey)

/-- **Another order.** Declarations that are allowed are so in every order in which none stands above
one that it refers to. -/
theorem Allowed.perm (h : Allowed check [] ms) (hperm : ms'.Perm ms)
    (horder : ms'.Pairwise fun m m' => ¬m.RefersTo m') : Allowed check [] ms' := by
  have hnodup : (keysOf ms').Nodup :=
    ((hperm.filterMap _).nodup_iff).mpr (h.nodup List.nodup_nil)
  rw [allowed_iff]
  intro front m back hsplit
  subst hsplit
  have hmem : m ∈ ms := hperm.mem_iff.mp (by simp)
  obtain ⟨front', back', rfl⟩ := List.append_of_mem hmem
  have hfits := allowed_iff.mp h front' m back' rfl
  rw [List.nil_append] at hfits ⊢
  rw [keysOf_append, keysOf_cons] at hnodup
  refine ⟨hfits.isSound, fun key hkey hfront => ?_, fun key hkey => ?_⟩
  · refine (List.nodup_append.mp hnodup).2.2 key hfront key ?_ rfl
    rw [hkey]
    exact List.mem_append_left _ (by simp)
  · -- what is referred to stands somewhere, but neither at nor below the declaration
    obtain ⟨m', hm', hkey'⟩ := mem_keysOf.mp (hfits.references key hkey)
    have hbefore : m' ∈ front ++ m :: back := hperm.mem_iff.mpr (List.mem_append_left _ hm')
    rcases List.mem_append.mp hbefore with hmem | hmem
    · exact mem_keysOf.mpr ⟨m', hmem, hkey'⟩
    · rcases List.mem_cons.mp hmem with rfl | hmem
      · exact absurd (hfits.references key hkey) (hfits.isFree key hkey')
      · have hbehind := (List.pairwise_cons.mp (List.pairwise_append.mp horder).2.1).1 m' hmem
        exact absurd ⟨key, hkey, hkey'⟩ hbehind

end Allowed

-- ============================================================================
-- Rows
-- ============================================================================

/-- What a row declares, told by names. -/
def rowDeclared? (row : List Char) : Option NamedDeclaration := declared? (wordsOf row) (endOf row)

/-- A row without words declares nothing. -/
theorem rowDeclared?_of_nil {row : List Char} (h : wordsOf row = []) : rowDeclared? row = none := by
  rw [rowDeclared?, h]
  rfl

theorem Phrase.Corresponds.named? {σ : Span → Span → Prop} {φ ψ : Phrase}
    (h : φ.Corresponds σ ψ) : φ.named? = ψ.named? := by
  cases h with
  | clock hsize hname => simp only [Phrase.named?, hsize.text, hname.text]
  | int hsize hmin hmax hinitial hname =>
    simp only [Phrase.named?, hsize.text, hmin.text, hmax.text, hinitial.text, hname.text]
  | event hname => simp only [Phrase.named?, hname.text]
  | process hname => simp only [Phrase.named?, hname.text]
  | location howner hname => simp only [Phrase.named?, howner.text, hname.text]
  | edge howner htarget hsource hlabel =>
    simp only [Phrase.named?, howner.text, htarget.text, hsource.text, hlabel.text]
  | sync hlinks =>
    have hcontent := map_eq_of_forall₂ (f := Link.content) (g := Link.content)
      (fun l m hlm => by rw [Link.content, Link.content, hlm.process.text, hlm.event.text,
        hlm.strength]) hlinks
    rw [Phrase.named?, Phrase.named?, hcontent]

/-- Which of the ends ends a line does not matter for what it declares. -/
theorem declared?_stop {ws : List Word} (hws : InLine ws) {stop stop' : Word}
    (hstop : stop.kind.endsDeclaration = true) (hstop' : stop'.kind.endsDeclaration = true) :
    declared? ws stop = declared? ws stop' := by
  have hone : ∀ {e e' : Word} {m : NamedDeclaration}, e'.kind.endsDeclaration = true →
      declared? ws e = some m → declared? ws e' = some m := by
    intro e e' m he' hm
    obtain ⟨φ, as, houtcome, hnamed⟩ := declared?_eq_some_iff.mp hm
    obtain ⟨houtcome', -⟩ := Place.outcome_stop (p := Phrase.opening) rfl hws houtcome he'
    exact declared?_eq_some_iff.mpr ⟨φ, as, houtcome', hnamed⟩
  ext m
  exact ⟨hone hstop', hone hstop⟩

/-- Where words stand does not matter for what they declare. -/
theorem declared?_below (ws : List Word) (k : Nat) (stop : Word) :
    declared? (ws.map (Word.below k)) stop = declared? ws stop := by
  have hwords : List.Forall₂ (Word.Corresponds fun _ _ => True) (ws.map (Word.below k)) ws := by
    rw [List.forall₂_map_left_iff, List.forall₂_same]
    exact fun w _ => ⟨rfl, rfl, trivial⟩
  have hread := Phrase.corresponds_opening.read Span.compatible_true hwords
  have hstop : stop.Corresponds (fun _ _ => True) stop := ⟨rfl, rfl, trivial⟩
  rcases (hread.outcome hstop).ok_or_error with
    ⟨⟨φ, as⟩, ⟨ψ, bs⟩, hφ, hψ, hnamed, has⟩ | ⟨f, g, hf, hg, -⟩
  · rw [declared?, declared?, hφ, hψ]
    dsimp only
    rw [hnamed.named?, has.withoutSpans]
  · rw [declared?, declared?, hf, hg]

/-- A line declares what its row does. -/
theorem declared_of_row {l : Line} (hl : l.IsEnded) {row : List Char} {k : Nat}
    (hwords : l.words = (wordsOf row).map (Word.below k)) : l.declared? = rowDeclared? row := by
  have hrow : InLine (wordsOf row) := by
    intro w hw
    exact hl.1 (w.below k) (hwords ▸ List.mem_map_of_mem hw)
  rw [Line.declared?, hwords, declared?_below, rowDeclared?]
  exact declared?_stop hrow hl.2 rfl

-- ============================================================================
-- Rows of a text
-- ============================================================================

/-- The rows that are not blank. -/
def written (rows : List (List Char)) : List (List Char) :=
  rows.filter fun row => !(wordsOf row).isEmpty

/-- Each line has the words of a row, somewhere below it. -/
theorem forall₂_stacked (rows : List (List Char)) :
    List.Forall₂ (fun ws row => ∃ k, ws = (wordsOf row).map (Word.below k))
      (stacked (rows.map wordsOf)) (written rows) := by
  induction rows with
  | nil => exact .nil
  | cons row rows ih =>
    have hmoved : List.Forall₂ (fun ws row => ∃ k, ws = (wordsOf row).map (Word.below k))
        ((stacked (rows.map wordsOf)).map (List.map (Word.below 1))) (written rows) := by
      rw [List.forall₂_map_left_iff]
      refine ih.imp fun ws row hrow => ?_
      obtain ⟨k, rfl⟩ := hrow
      exact ⟨k + 1, Word.map_below_below k 1 _⟩
    rw [List.map_cons, stacked_cons]
    by_cases hnil : wordsOf row = []
    · rw [if_pos hnil, written, List.filter_cons_of_neg (by simp [hnil])]
      exact hmoved
    · rw [if_neg hnil, written, List.filter_cons_of_pos (by simp [hnil])]
      exact .cons ⟨0, (Word.map_below_zero _).symm⟩ hmoved

/-- **The lines of a text**: the first one is the first row with words, and the others declare what
the rows below it do. -/
theorem exists_lines_of_rows {top body : List (List Char)} {header : List Char}
    (hrows : ∀ row ∈ top ++ header :: body, '\n' ∉ row) (htop : ∀ row ∈ top, wordsOf row = [])
    (hheader : wordsOf header ≠ []) :
    ∃ first others, linesOf (Text.ofRows (top ++ header :: body)).toList = first :: others ∧
      first.words = (wordsOf header).map (Word.below top.length) ∧
      others.map Line.declared? = (written body).map rowDeclared? := by
  have hended := isEnded_linesOf (Text.ofRows (top ++ header :: body)).toList
  have hwords := words_linesOf_ofRows hrows
  have hblank : ∀ ws ∈ top.map wordsOf, ws = [] := List.forall_mem_map.mpr htop
  rw [List.map_append, List.map_cons, stacked_append_of_blank hblank, stacked_cons,
    if_neg hheader, List.length_map, List.singleton_append, List.map_cons] at hwords
  obtain ⟨first, others, hlines, hfirst, hothers⟩ := List.map_eq_cons_iff.mp hwords
  rw [hlines] at hended
  refine ⟨first, others, hlines, hfirst, ?_⟩
  have hboth : List.Forall₂ (fun l row => l.IsEnded ∧ ∃ k, l.words = (wordsOf row).map (Word.below k))
      others (written body) := by
    refine (List.forall₂_and_left _ _).mpr ⟨(List.forall_mem_cons.mp hended).2, ?_⟩
    have hall : List.Forall₂ (fun ws row => ∃ k, ws = (wordsOf row).map (Word.below k))
        (others.map Line.words) (written body) := by
      rw [hothers, List.forall₂_map_left_iff, List.forall₂_map_left_iff]
      refine (forall₂_stacked body).imp fun ws row hrow => ?_
      obtain ⟨k, rfl⟩ := hrow
      exact ⟨k + (1 + top.length), by rw [Word.map_below_below, Word.map_below_below]⟩
    exact List.forall₂_map_left_iff.mp hall
  exact map_eq_of_forall₂ (fun l row ⟨hl, k, hk⟩ => declared_of_row hl hk) hboth

theorem filterMap_written (rows : List (List Char)) :
    (written rows).filterMap rowDeclared? = rows.filterMap rowDeclared? := by
  rw [written, List.filterMap_filter]
  refine List.filterMap_congr fun row _ => ?_
  split
  · rfl
  · next hblank =>
    have hnil : wordsOf row = [] := by simpa using hblank
    exact (rowDeclared?_of_nil hnil).symm

/-- What lines declare, from what their rows do. -/
theorem declared_of_written {body : List (List Char)} {others : List Line}
    (h : others.map Line.declared? = (written body).map rowDeclared?) :
    others.filterMap Line.declared? = body.filterMap rowDeclared? ∧
      ((∀ l ∈ others, l.declared?.isSome = true) ↔
        ∀ row ∈ body, wordsOf row ≠ [] → (rowDeclared? row).isSome = true) := by
  constructor
  · have hlines : others.filterMap Line.declared? = (others.map Line.declared?).filterMap id := by
      rw [List.filterMap_map, Function.id_comp]
    rw [hlines, h, List.filterMap_map, Function.id_comp, filterMap_written]
  · rw [← List.forall_mem_map (f := Line.declared?) (P := fun d => d.isSome = true), h,
      List.forall_mem_map]
    simp [written]

-- ============================================================================
-- Texts
-- ============================================================================

section Texts

variable {top body body' : List (List Char)} {header : List Char} {options : Options}

/-- Each row with words declares something. -/
def AllDeclare (body : List (List Char)) : Prop :=
  ∀ row ∈ body, wordsOf row ≠ [] → (rowDeclared? row).isSome = true

/-- The rows of a text that is read as a network declare what is allowed. -/
theorem allowed_of_parse {n : System} (hrows : ∀ row ∈ top ++ header :: body, '\n' ∉ row)
    (htop : ∀ row ∈ top, wordsOf row = []) (hheader : wordsOf header ≠ [])
    (hread : (parse (Text.ofRows (top ++ header :: body)) options).system = some n) :
    (∃ name as stop, (Header.opening.read ((wordsOf header).map (Word.below top.length))).outcome
      stop = .ok (name, as)) ∧
    AllDeclare body ∧ Allowed options.boundsCheck [] (body.filterMap rowDeclared?) := by
  obtain ⟨first, others, hlines, hwords, hothers⟩ := exists_lines_of_rows hrows htop hheader
  obtain ⟨first', others', name, as, hlines', hfirst, hclean, -⟩ := exists_header_of_parse hread
  obtain ⟨rfl, rfl⟩ := List.cons.inj (hlines.symm.trans hlines')
  have hlexical := lexical_linesOf (Text.ofRows (top ++ header :: body)).toList
  rw [hlines] at hlexical
  obtain ⟨hdeclared, hsome⟩ := declared_of_written hothers
  obtain ⟨hall, hallowed⟩ := Store.allowed_of_enterLines Store.isDenoted_empty
    (List.forall_mem_cons.mp hlexical).2 hclean
  rw [hdeclared] at hallowed
  exact ⟨⟨name, as, first.stop, hwords ▸ hfirst⟩, hsome.mp hall, hallowed⟩

/-- Rows that declare what is allowed are read as a network, and that tells its outline. -/
theorem parse_of_allowed (hrows : ∀ row ∈ top ++ header :: body, '\n' ∉ row)
    (htop : ∀ row ∈ top, wordsOf row = []) (hheader : wordsOf header ≠ [])
    {name : Lexeme} {as : Attributes} {stop : Word}
    (hfirst : (Header.opening.read ((wordsOf header).map (Word.below top.length))).outcome stop =
      .ok (name, as))
    (hdeclare : AllDeclare body)
    (hallowed : Allowed options.boundsCheck [] (body.filterMap rowDeclared?)) :
    let parsed := parse (Text.ofRows (top ++ header :: body)) options
    (∃ n, parsed.system = some n ∧ n.name = name.text ∧ n.attributes = as ∧
      n.span = (Header.opening.read ((wordsOf header).map (Word.below top.length))).span stop ∧
      n.store.outline = body.filterMap rowDeclared?) ∧
    (∀ d ∈ parsed.diagnostics, d.isError = false) ∧
    parsed.diagnostics.map Diagnostic.withoutSpans =
      (body.filterMap rowDeclared?).filterMap fun m => m.item.warning? options.boundsCheck := by
  intro parsed
  obtain ⟨first, others, hlines, hwords, hothers⟩ := exists_lines_of_rows hrows htop hheader
  have hended := isEnded_linesOf (Text.ofRows (top ++ header :: body)).toList
  have hlexical := lexical_linesOf (Text.ofRows (top ++ header :: body)).toList
  rw [hlines] at hended hlexical
  obtain ⟨⟨hinLine, hstop⟩, -⟩ := List.forall_mem_cons.mp hended
  rw [← hwords] at hfirst ⊢
  obtain ⟨hfirst', hspan, -⟩ :=
    Place.outcome_stop (p := Header.opening) rfl hinLine hfirst hstop
  obtain ⟨hdeclared, hsome⟩ := declared_of_written hothers
  rw [← hdeclared] at hallowed ⊢
  obtain ⟨houtline, hwarnings, hclean⟩ := Store.enterLines_of_allowed Store.isDenoted_empty
    (List.forall_mem_cons.mp hlexical).2 (hsome.mpr hdeclare) hallowed
  have hparse : parsed = _ := parse_of_header hlines hfirst' hclean
  rw [hparse]
  exact ⟨⟨_, rfl, rfl, rfl, hspan, houtline⟩, hclean, hwarnings⟩

/-- A text that is read as a network has a first row with words. -/
theorem exists_first_row {source : String} {n : System}
    (hread : (parse source options).system = some n) :
    ∃ top header body, Text.rows source = top ++ header :: body ∧
      (∀ row ∈ top, wordsOf row = []) ∧ wordsOf header ≠ [] := by
  have hsome : ((Text.rows source).find? fun row => !(wordsOf row).isEmpty).isSome = true := by
    rw [List.find?_isSome]
    by_contra hnone
    have hblank : ∀ words ∈ (Text.rows source).map wordsOf, words = [] := by
      rw [List.forall_mem_map]
      intro row hrow
      by_contra hne
      exact hnone ⟨row, hrow, by simpa using hne⟩
    obtain ⟨first, others, name, as, hlines, -⟩ := exists_header_of_parse hread
    have hwords := words_linesOf source
    rw [hlines, ← List.nil_append ((Text.rows source).map wordsOf),
      stacked_append_of_nil [] hblank] at hwords
    exact absurd hwords (List.cons_ne_nil _ _)
  obtain ⟨header, hheader⟩ := Option.isSome_iff_exists.mp hsome
  obtain ⟨hne, top, body, hrows, htop⟩ := List.find?_eq_some_iff_append.mp hheader
  exact ⟨top, header, body, hrows, fun row hrow => by simpa using htop row hrow, by simpa using hne⟩

/-- **Another order.** Take the rows of a text that is read as a network, and put those below the
first one with words in any other order in which none stands above one that it refers to. This text
too is read as a network, without an error. Told by names, its declarations are what its rows
declare, in their order, just like those of the first text; and the warnings are the same ones, up to
their order and places. -/
theorem parse_of_reordering {source : String} {n : System}
    (hread : (parse source options).system = some n) :
    ∃ top header body, Text.rows source = top ++ header :: body ∧
      (∀ row ∈ top, wordsOf row = []) ∧ wordsOf header ≠ [] ∧
      (∀ row ∈ body, wordsOf row ≠ [] → (rowDeclared? row).isSome = true) ∧
      n.store.outline = body.filterMap rowDeclared? ∧
      ∀ body', body'.Perm body →
        (body'.filterMap rowDeclared?).Pairwise (fun m m' => ¬m.RefersTo m') →
        let reordered := parse (Text.ofRows (top ++ header :: body')) options
        (∃ n', reordered.system = some n' ∧ n'.name = n.name ∧ n'.attributes = n.attributes ∧
          n'.span = n.span ∧ n'.store.outline = body'.filterMap rowDeclared?) ∧
        (∀ d ∈ reordered.diagnostics, d.isError = false) ∧
        (reordered.diagnostics.map Diagnostic.withoutSpans).Perm
          ((parse source options).diagnostics.map Diagnostic.withoutSpans) := by
  obtain ⟨top, header, body, hrows, htop, hheader⟩ := exists_first_row hread
  have hfree : ∀ row ∈ top ++ header :: body, '\n' ∉ row := by
    rw [← hrows]
    exact fun row hrow => Text.newline_notMem_of_mem_rows hrow
  obtain rfl : Text.ofRows (top ++ header :: body) = source := by rw [← hrows, Text.ofRows_rows]
  obtain ⟨⟨name, as, stop, hfirst⟩, hdeclare, hallowed⟩ :=
    allowed_of_parse hfree htop hheader hread
  obtain ⟨⟨m, hm, hname, has, hspan, houtline⟩, -, hwarnings⟩ :=
    parse_of_allowed hfree htop hheader hfirst hdeclare hallowed
  obtain rfl : m = n := Option.some.inj (hm.symm.trans hread)
  refine ⟨top, header, body, hrows, htop, hheader, hdeclare, houtline, ?_⟩
  intro body' hperm horder reordered
  have hsame : (top ++ header :: body').Perm (top ++ header :: body) :=
    (hperm.cons header).append_left top
  have hfree' : ∀ row ∈ top ++ header :: body', '\n' ∉ row := fun row hrow =>
    hfree row (hsame.mem_iff.mp hrow)
  have hdeclare' : AllDeclare body' := fun row hrow => hdeclare row (hperm.mem_iff.mp hrow)
  have hallowed' : Allowed options.boundsCheck [] (body'.filterMap rowDeclared?) :=
    hallowed.perm (hperm.filterMap _) horder
  obtain ⟨⟨m', hm', hname', has', hspan', houtline'⟩, hclean', hwarnings'⟩ :=
    parse_of_allowed hfree' htop hheader hfirst hdeclare' hallowed'
  refine ⟨⟨m', hm', hname'.trans hname.symm, has'.trans has.symm, hspan'.trans hspan.symm,
    houtline'⟩, hclean', ?_⟩
  rw [hwarnings, hwarnings']
  exact (hperm.filterMap _).filterMap _

/-- A text with a warning, whose rows can be put in another order. -/
def warnedSample : String := "system:s\nprocess:P\nevent:e\nint:1:0:1:5:n\nsync:P@e"

def warnedReorderedSample : String := "system:s\nint:1:0:1:5:n\nevent:e\nprocess:P\nsync:P@e"

theorem parse_of_reordering_warnedSample :
    let options : Options := { boundsCheck := .warn }
    (∃ n, (parse warnedSample options).system = some n) ∧
      (∃ n', (parse warnedReorderedSample options).system = some n' ∧
        n'.store.outline = [⟨.int "n" 1 0 1 5, {}⟩, ⟨.event "e", {}⟩, ⟨.process "P", {}⟩,
          ⟨.sync [("P", "e", .strong)], {}⟩]) ∧
      (parse warnedReorderedSample options).diagnostics.length = 1 := by
  intro options
  have hread : (parse warnedSample options).system.isSome = true := by decide +kernel
  obtain ⟨n, hn⟩ := Option.isSome_iff_exists.mp hread
  obtain ⟨top, header, body, hrows, htop, -, -, -, hreorder⟩ := parse_of_reordering hn
  have hsample : Text.rows warnedSample = ["system:s".toList, "process:P".toList,
      "event:e".toList, "int:1:0:1:5:n".toList, "sync:P@e".toList] := by decide +kernel
  rw [hsample] at hrows
  have hfirst : wordsOf "system:s".toList ≠ [] := by decide +kernel
  cases top with
  | cons row top =>
    obtain ⟨rfl, -⟩ := List.cons.inj hrows
    exact absurd (htop _ List.mem_cons_self) hfirst
  | nil =>
    -- the first row has words, so that the others are those to be put in order
    obtain ⟨rfl, rfl⟩ := List.cons.inj hrows
    obtain ⟨⟨n', hn', -, -, -, houtline⟩, -, hsaid⟩ := hreorder ["int:1:0:1:5:n".toList,
      "event:e".toList, "process:P".toList, "sync:P@e".toList] (by decide +kernel)
      (by decide +kernel)
    have htext : warnedReorderedSample = Text.ofRows ([] ++ "system:s".toList ::
        ["int:1:0:1:5:n".toList, "event:e".toList, "process:P".toList, "sync:P@e".toList]) := by
      decide +kernel
    rw [← htext] at hn' hsaid
    refine ⟨⟨n, hn⟩, ⟨n', hn', houtline.trans (by decide +kernel)⟩, ?_⟩
    have hlength := hsaid.length_eq
    rw [List.length_map, List.length_map] at hlength
    exact hlength.trans (by decide +kernel)

end Texts

end TimedNet
