/-
  TimedNet.Proofs.Session.Soundness

  A network that was read from a text makes sense. Its name is a name, its attributes are
  printable, and its store grew from the empty one by declarations that phrases denote. Each line
  that is entered without an error makes the store grow by one declaration
  (`declarable_of_enter`).
-/
import TimedNet.Proofs.Session.Verdict
import TimedNet.Proofs.Session.Growth

namespace TimedNet

-- ============================================================================
-- Words behind a line
-- ============================================================================

theorem lexical_skipLineEnds {ws : List Word} (h : Lexical true (ws.map Word.shape)) :
    Lexical true ((skipLineEnds ws).map Word.shape) := by
  induction ws with
  | nil => exact h
  | cons w ws ih =>
    by_cases hw : w.isLineEnd = true
    · obtain ⟨-, hrest⟩ := h
      have hkind : w.kind = .endOfLine := beq_iff_eq.mp hw
      rw [hkind] at hrest
      rw [skipLineEnds, List.dropWhile_cons_of_pos hw]
      exact ih hrest
    · rw [skipLineEnds, List.dropWhile_cons_of_neg hw]
      exact h

/-- Behind the end of a line that was read, no attribute list is open. -/
theorem lexical_passLineEnd {α : Type} {p : Place α} {outside : Bool} {ws : List Word}
    (h : Lexical outside (ws.map Word.shape)) {close : Word} {result : α × Attributes}
    (hresult : (p.read ws).outcome close = .ok result) :
    Lexical true ((passLineEnd (p.read ws).rest).map Word.shape) := by
  rw [← p.read_words_append_rest ws, List.map_append] at h
  have hrest := lexical_append h
  have hstop := (Reading.outcome_eq_ok_iff.mp hresult).1
  cases hleft : (p.read ws).rest with
  | nil => exact trivial
  | cons e more =>
    rw [hleft] at hrest
    rw [Reading.stop, hleft, List.headD_cons] at hstop
    obtain ⟨he, hmore⟩ := hrest
    have hkind : e.kind = .endOfLine := by
      cases hk : e.kind <;> simp_all [TokenKind.endsDeclaration]
      exact he.inText rfl
    have hpass : e.isLineEnd = true := beq_iff_eq.mpr hkind
    rw [hkind] at hmore
    rw [passLineEnd, if_pos hpass]
    exact hmore

-- ============================================================================
-- One line
-- ============================================================================

/-- What a line adds if nothing that is said about it is an error: a declaration of what its phrase
denotes. -/
theorem denotes_of_enter {check : BoundsCheck} {s : Store} {close : Word} {ws : List Word}
    (hws : Lexical true (ws.map Word.shape))
    (hclean : ∀ d ∈ (s.enter check close ws).diagnostics, d.isError = false) :
    ∃ φ as i, (Phrase.opening.read ws).outcome close = .ok (φ, as) ∧ φ.Denotes s i ∧
      Declarable check s ⟨i, as, (Phrase.opening.read ws).span close⟩ ∧
      (s.enter check close ws).store = s.push ⟨i, as, (Phrase.opening.read ws).span close⟩ := by
  rcases s.enter_cases check close ws with ⟨f, -, hsaid, -⟩ | ⟨φ, as, d, -, haccept, hsaid, -⟩ |
    ⟨φ, as, a, houtcome, haccept, hsaid, hstore⟩
  · have herr := hclean f.diagnostic (by simp [hsaid])
    exact absurd herr (by simp [f.isError_diagnostic])
  · have herr := hclean d (by simp [hsaid])
    exact absurd herr (by simp [(Store.isSemantic_accept _ _ _ d haccept).1])
  · obtain ⟨⟨hnames, hparts⟩, has⟩ := Place.sound_of_outcome Phrase.sound_opening hws houtcome
    have hfaultless : ∀ part ∈ φ.parts, part.fault? s = none := by
      intro part hpart
      rw [Option.eq_none_iff_forall_ne_some]
      intro d hd
      have hnote : d ∈ (s.enter check close ws).diagnostics := by
        rw [hsaid, List.mem_append, List.mem_filterMap]
        exact Or.inl ⟨part, hparts ▸ hpart, hd⟩
      exact absurd (hclean d hnote) (by simp [(Part.isSemantic_of_fault hd).1])
    obtain ⟨i, hdenotes, hsized, hbounds, hfault, hpush⟩ :=
      (Store.accept_eq_ok_iff hfaultless check as _ a.store).mp ⟨a, haccept, rfl⟩
    have hdeclarable : Declarable check s ⟨i, as, (Phrase.opening.read ws).span close⟩ :=
      ⟨⟨φ, hnames, hdenotes⟩, hsized, hbounds, hfault, has⟩
    exact ⟨φ, as, i, houtcome, hdenotes, hdeclarable, hstore.trans hpush⟩

/-- **One line.** If nothing that is said about a line is an error, the store takes one declaration,
and the words behind it are those of the next line. -/
theorem declarable_of_enter {check : BoundsCheck} {s : Store} {close : Word} {ws : List Word}
    (hws : Lexical true (ws.map Word.shape))
    (hclean : ∀ d ∈ (s.enter check close ws).diagnostics, d.isError = false) :
    ∃ d, Declarable check s d ∧ (s.enter check close ws).store = s.push d ∧
      Lexical true ((s.enter check close ws).rest.map Word.shape) := by
  obtain ⟨φ, as, i, houtcome, -, hdeclarable, hstore⟩ := denotes_of_enter hws hclean
  refine ⟨_, hdeclarable, hstore, ?_⟩
  rw [Store.enter_rest, Reading.left, houtcome]
  exact lexical_passLineEnd hws houtcome

-- ============================================================================
-- The lines of a text
-- ============================================================================

namespace Session

/-- Errors are never taken back. -/
theorem Says.le_errorCount {s t : Session} {ds : List Diagnostic} (h : s.Says ds t) :
    s.report.errorCount ≤ t.report.errorCount := by
  rw [h.report, Report.errorCount_append]
  exact Nat.le_add_right _ _

/-- **The loop over the lines.** If it adds no error, the store grows. -/
theorem grows_readDeclarations {u : Session} {s : Store}
    (hwords : Lexical true (u.words.map Word.shape))
    (hclean : (u.readDeclarations s).2.report.errorCount = u.report.errorCount) :
    ∃ ds, Grows u.options.boundsCheck s ds (u.readDeclarations s).1 := by
  induction u, s using readDeclarations.induct with
  | case1 u s hs =>
    rw [readDeclarations_of_nil s hs]
    exact ⟨[], .nil s⟩
  | case2 u s w ws hs hw =>
    rw [readDeclarations_of_cons s hs, if_pos hw]
    exact ⟨[], .nil s⟩
  | case3 u s w ws hs hw entry next hover =>
    rw [readDeclarations_of_over hs hw rfl rfl hover] at hclean
    -- giving up is one more error
    have habort : next.abort.report.errorCount = next.report.errorCount + 1 :=
      next.errorCount_say [_]
    have hnext : next.report.errorCount =
        u.report.errorCount + entry.diagnostics.countP Diagnostic.isError :=
      u.errorCount_say entry.diagnostics
    have hcount : next.abort.report.errorCount = u.report.errorCount := hclean
    omega
  | case4 u s w ws hs hw entry next hover ih =>
    rw [readDeclarations_of_not_over hs hw rfl rfl hover] at hclean ⊢
    obtain ⟨more, hloop⟩ := next.says_readDeclarations entry.store
    have hle : next.report.errorCount ≤ (next.readDeclarations entry.store).2.report.errorCount :=
      hloop.le_errorCount
    have hcount : (next.readDeclarations entry.store).2.report.errorCount = u.report.errorCount :=
      hclean
    have hnext : next.report.errorCount =
        u.report.errorCount + entry.diagnostics.countP Diagnostic.isError :=
      u.errorCount_say entry.diagnostics
    have hzero : entry.diagnostics.countP Diagnostic.isError = 0 := by omega
    have hline : ∀ d ∈ entry.diagnostics, d.isError = false := by
      simpa [List.countP_eq_zero] using hzero
    have hlexical := lexical_skipLineEnds hwords
    rw [hs] at hlexical
    obtain ⟨d, hd, hstore, hrest⟩ := declarable_of_enter hlexical hline
    obtain ⟨ds, hgrows⟩ := ih hrest (by rw [hcount, hnext, hzero, Nat.add_zero])
    have hentry : entry.store = s.push d := hstore
    rw [hentry] at hgrows
    exact ⟨d :: ds, .cons hd (hentry ▸ hgrows)⟩

/-- The network that a reading gives out is the one that it built, and it built it without error. -/
theorem build_of_read {s : Session} {n : System} (h : s.read.1 = some n) :
    s.build.network = some n ∧ s.build.errorCount = 0 := by
  unfold read at h
  dsimp only at h
  split at h
  · exact absurd h (by simp)
  · next hgood =>
    refine ⟨h, ?_⟩
    simp only [Bool.or_eq_true, bne_iff_ne, ne_eq, not_or, Decidable.not_not] at hgood
    exact hgood.2

/-- What is known of the declaration of the network. -/
theorem sound_readHeader {s t : Session} {n : System}
    (hwords : Lexical true (s.words.map Word.shape)) (h : s.readHeader = (some n, t)) :
    IsName n.name ∧ (∀ a ∈ n.attributes.entries, a.IsPrintable) ∧
      Lexical true (t.words.map Word.shape) ∧ t.report = s.report ∧ t.options = s.options := by
  have hlexical := lexical_skipLineEnds hwords
  unfold readHeader at h
  dsimp only at h
  split at h
  · next name as houtcome =>
    obtain ⟨⟨hname, -⟩, has⟩ := Place.sound_of_outcome Header.sound_opening hlexical houtcome
    obtain ⟨hn, rfl⟩ := Prod.mk.inj h
    obtain rfl := Option.some.inj hn
    refine ⟨hname, has, ?_, rfl, rfl⟩
    show Lexical true ((Reading.left _ _ _).map Word.shape)
    rw [Reading.left, houtcome]
    exact lexical_passLineEnd hlexical houtcome
  · exact absurd h (by simp)

/-- The declaration of the network is not kept before all others are read. -/
theorem network_readHeader (s : Session) : s.readHeader.2.network = s.network := by
  unfold readHeader
  dsimp only
  split <;> rfl

/-- What is known of a network that a new session built without error. -/
theorem sound_build {s : Session} {n : System} (hwords : Lexical true (s.words.map Word.shape))
    (hnone : s.network = none) (hreport : s.report = .empty) (h : s.build.network = some n)
    (hclean : s.build.report.errorCount = 0) :
    IsName n.name ∧ (∀ a ∈ n.attributes.entries, a.IsPrintable) ∧
      ∃ ds, Grows s.options.boundsCheck .empty ds n.store := by
  unfold build at h hclean
  rcases hheader : s.readHeader with ⟨network, t⟩
  rw [hheader] at h hclean
  cases network with
  | none =>
    have hkept := s.network_readHeader
    rw [hheader, hnone] at hkept
    have hsome : t.network = some n := h
    exact absurd (hkept.symm.trans hsome) (by simp)
  | some network =>
    obtain ⟨hname, has, hrest, htreport, htoptions⟩ := sound_readHeader hwords hheader
    obtain rfl := Option.some.inj h
    refine ⟨hname, has, ?_⟩
    rw [← htoptions]
    refine grows_readDeclarations hrest ?_
    rw [htreport, hreport]
    exact hclean

end Session

/-- **What a network is like.** One that was read from a text has a name, printable attributes,
and a store that grew from the empty one. -/
theorem sound_parse {source : String} {options : Options} {n : System}
    (h : (parse source options).system = some n) :
    IsName n.name ∧ (∀ a ∈ n.attributes.entries, a.IsPrintable) ∧
      ∃ ds, Grows options.boundsCheck .empty ds n.store := by
  have hread : (Session.new (Token.scan source) (.ofText source) options .empty).read.1 = some n := h
  obtain ⟨hnetwork, hcount⟩ := Session.build_of_read hread
  have hwords : Lexical true
      ((Session.new (Token.scan source) (.ofText source) options .empty).words.map Word.shape) := by
    show Lexical true ((List.map (Token.word (.ofText source)) (Token.scan source)).map Word.shape)
    rw [List.map_map]
    exact Token.lexical_scanFrom .outside 0 source.toList
  obtain ⟨ds, hbuild, -⟩ :=
    (Session.new (Token.scan source) (.ofText source) options .empty).says_build
  refine Session.sound_build hwords rfl rfl hnetwork ?_
  rw [Session.errorCount, hbuild.earlierErrors] at hcount
  exact hcount

end TimedNet
