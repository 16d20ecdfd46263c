/-
  TimedNet.Proofs.Grammar.Expected

  What a place expects is what may come next. The language of the place that a reading reaches is
  what the words that were read leave of the language of the place where it began
  (`remaining_read`). Every place that a word leads to can be completed to a line, so a kind is
  expected exactly if some way to complete the line begins with it (`mem_expected_iff`). So a fault
  is found at the first word with which no line goes on, and it lists all that could stand there
  (`isExact_of_outcome`).
-/
import Mathlib.Computability.MyhillNerode
import TimedNet.Proofs.Grammar.LineEnds

namespace TimedNet

-- ============================================================================
-- What may follow
-- ============================================================================

/-- Whether a kind may come next behind the beginning of a line: some line goes on with it. The end
of a line or text may come next where the line may end. -/
def MayFollow (rule : Language TokenKind) (begun : List TokenKind) (k : TokenKind) : Prop :=
  if k.endsDeclaration then begun ∈ rule else ∃ more, begun ++ k :: more ∈ rule

theorem mayFollow_leftQuotient {rule : Language TokenKind} {begun : List TokenKind}
    {k : TokenKind} : MayFollow (rule.leftQuotient begun) [] k ↔ MayFollow rule begun k := by
  unfold MayFollow
  rw [Language.mem_leftQuotient, List.append_nil]
  exact Iff.rfl

/-- A fault behind the first words of a line is exact: it is found at the first word with which no
line of a rule goes on, and it lists the kinds that could stand there, each once. At the beginning
of a line these are keywords. -/
structure Fault.IsExact (f : Fault) (rule : Language TokenKind) (opens : List Keyword) (l : Line)
    (before : List Word) : Prop where
  stands : before ++ [f.found] <+: l.words ++ [l.stop]
  viable : ∃ more, kinds before ++ more ∈ rule
  misfit : ¬ MayFollow rule (kinds before) f.found.kind
  expected : ∀ k, k ∈ f.expected ↔ MayFollow rule (kinds before) k
  nodup : f.expected.Nodup
  opening : before = [] → f.expected = opens.map .keyword

-- ============================================================================
-- Places that can be completed
-- ============================================================================

section Completion

theorem exists_mem_token_mul (k : TokenKind) {l : Language TokenKind} (h : ∃ ks, ks ∈ l) :
    ∃ ks, ks ∈ {[k]} * l := by
  obtain ⟨ks, hks⟩ := h
  exact ⟨k :: ks, cons_mem_token_mul.mpr ⟨rfl, hks⟩⟩

/-- What may be left out is left out. -/
theorem exists_mem_optional_mul (k : TokenKind) {l : Language TokenKind} (h : ∃ ks, ks ∈ l) :
    ∃ ks, ks ∈ ({[k]} + 1) * l := by
  obtain ⟨ks, hks⟩ := h
  refine ⟨ks, ?_⟩
  rw [add_mul, one_mul]
  exact Or.inr hks

theorem exists_mem_fields (ks : List TokenKind) :
    ∃ js, js ∈ (Pattern.tokens ks * Pattern.attrList).matches' := by
  induction ks with
  | nil => exact ⟨[], Language.append_mem_mul Language.nil_mem_one nil_mem_attrList⟩
  | cons k ks ih =>
    rw [Pattern.tokens, RegularExpression.matches'_mul, RegularExpression.matches'_mul,
      RegularExpression.matches'_char, mul_assoc]
    exact exists_mem_token_mul k ih

theorem exists_mem_moreEntries : ∃ ks, ks ∈ ListStep.moreEntries :=
  ⟨[.rBrace], cons_mem_moreEntries.mpr (Or.inl ⟨rfl, rfl⟩)⟩

theorem ListStep.exists_mem_remaining (step : ListStep) : ∃ ks, ks ∈ step.remaining := by
  have hvalue := exists_mem_optional_mul .text exists_mem_moreEntries
  cases step with
  | opened => exact ⟨[.rBrace], Or.inr rfl⟩
  | key =>
    rw [remaining, matches_attr_mul]
    exact exists_mem_token_mul _ (exists_mem_token_mul _ hvalue)
  | colon k => exact exists_mem_token_mul _ hvalue
  | value k => exact hvalue
  | separator k v => exact exists_mem_moreEntries
  | closed => exact ⟨[], Language.nil_mem_one⟩

theorem LinkStep.exists_mem_remaining (step : LinkStep) : ∃ ks, ks ∈ step.remaining := by
  have hmore : ∃ ks, ks ∈ moreLinks := ⟨[], nil_mem_moreLinks⟩
  have hevent := exists_mem_token_mul .ident (exists_mem_optional_mul .question hmore)
  have hlink := exists_mem_token_mul .ident (exists_mem_token_mul .atSign hevent)
  cases step with
  | lead =>
    rw [remaining, matches_syncConstraint_mul]
    exact exists_mem_token_mul _ hlink
  | process =>
    rw [remaining, matches_syncConstraint_mul]
    exact hlink
  | atSign p => exact exists_mem_token_mul _ hevent
  | event p => exact hevent
  | done l =>
    rw [remaining]
    split
    · exact exists_mem_optional_mul _ hmore
    · exact hmore

end Completion

namespace Place

variable {α : Type}

/-- Behind the keyword, a line can be completed wherever it stands. -/
theorem exists_mem_remaining {p : Place α} (hp : ∀ c rules, p ≠ .opening c rules) :
    ∃ ks, ks ∈ p.remaining := by
  cases p with
  | opening c rules => exact absurd rfl (hp c rules)
  | colon c slot slots fill =>
    exact exists_mem_token_mul _ (exists_mem_token_mul _ (exists_mem_fields _))
  | field c slot slots fill => exact exists_mem_token_mul _ (exists_mem_fields _)
  | filled c a => exact ⟨[], nil_mem_attrList⟩
  | link c join links step => exact step.exists_mem_remaining
  | list c a entries step => exact step.exists_mem_remaining

theorem exists_mem_of_next {p q : Place α} {w : Word} (h : p.next w = some q) :
    ∃ ks, ks ∈ q.remaining :=
  exists_mem_remaining (ne_opening_of_next h)

-- ============================================================================
-- Expected kinds
-- ============================================================================

/-- A rule is expected by its keyword. -/
theorem mem_keywords_iff {rules : List (Keyword × Rule α)} {k : Keyword} :
    TokenKind.keyword k ∈ (rules.map fun r => TokenKind.keyword r.1) ↔
      (rules.lookup k).isSome = true := by
  have hmem : TokenKind.keyword k ∈ (rules.map fun r => TokenKind.keyword r.1) ↔
      ∃ r ∈ rules, r.1 = k := by simp
  rw [hmem, ← not_iff_not, Bool.not_eq_true, Option.isSome_eq_false_iff,
    Option.isNone_iff_eq_none, List.lookup_eq_none_iff]
  constructor
  · intro hnone r hr
    rw [bne_iff_ne]
    rintro rfl
    exact hnone ⟨r, hr, rfl⟩
  · rintro hall ⟨r, hr, rfl⟩
    exact absurd (hall r hr) (by simp)

/-- A kind that is no end is expected exactly if a word of it leads on. -/
theorem mem_expected_iff_next (p : Place α) {w : Word} (hw : w.kind.endsDeclaration = false) :
    w.kind ∈ p.expected ↔ (p.next w).isSome = true := by
  cases p with
  | opening c rules =>
    cases hk : w.kind with
    | keyword k =>
      rw [expected, mem_keywords_iff]
      simp [next, hk]
    | _ => simp [expected, next, hk]
  | colon c slot slots fill => by_cases hk : w.kind = .colon <;> simp [expected, next, hk]
  | field c slot slots fill => by_cases hk : w.kind = slot.kind <;> simp [expected, next, hk]
  | filled c a => cases hk : w.kind <;> simp_all [expected, next, TokenKind.endsDeclaration]
  | link c join links step =>
    cases step with
    | done l =>
      by_cases hl : l.strength = .strong <;> cases hk : w.kind <;>
        simp_all [expected, next, nextInLink, TokenKind.endsDeclaration]
    | _ => cases hk : w.kind <;> simp [expected, next, nextInLink, hk]
  | list c a entries step =>
    cases step <;> cases hk : w.kind <;>
      simp_all [expected, next, nextInList, TokenKind.endsDeclaration]

/-- An end is expected exactly where the line may end. -/
theorem mem_expected_iff_result (p : Place α) {k : TokenKind} (hk : k.endsDeclaration = true) :
    k ∈ p.expected ↔ p.result?.isSome = true := by
  have hend : k = .endOfLine ∨ k = .endOfFile := by
    cases k <;> simp_all [TokenKind.endsDeclaration]
  cases p with
  | opening c rules => rcases hend with rfl | rfl <;> simp [expected, result?]
  | colon c slot slots fill => rcases hend with rfl | rfl <;> simp [expected, result?]
  | field c slot slots fill =>
    cases slot <;> rcases hend with rfl | rfl <;> simp [expected, result?, Slot.kind]
  | filled c a => rcases hend with rfl | rfl <;> simp [expected, result?]
  | link c join links step =>
    cases step with
    | done l =>
      by_cases hl : l.strength = .strong <;> rcases hend with rfl | rfl <;>
        simp [expected, result?, hl]
    | _ => rcases hend with rfl | rfl <;> simp [expected, result?]
  | list c a entries step =>
    cases step <;> rcases hend with rfl | rfl <;> simp [expected, result?]

/-- **Expected kinds.** A kind is expected at a place exactly if it may come next there. -/
theorem mem_expected_iff {p : Place α} (hp : p.Distinct) (k : TokenKind) :
    k ∈ p.expected ↔ MayFollow p.remaining [] k := by
  unfold MayFollow
  split
  · next hk => rw [nil_mem_remaining, mem_expected_iff_result p hk]
  · next hk =>
    let w : Word := ⟨k, "", default⟩
    have hnext : k ∈ p.expected ↔ (p.next w).isSome = true :=
      p.mem_expected_iff_next (w := w) (by simpa using hk)
    rw [hnext, Option.isSome_iff_exists]
    constructor
    · rintro ⟨q, hq⟩
      obtain ⟨ks, hks⟩ := exists_mem_of_next hq
      exact ⟨ks, (cons_mem_remaining hp w ks).mpr ⟨q, hq, hks⟩⟩
    · rintro ⟨ks, hks⟩
      obtain ⟨q, hq, -⟩ := (cons_mem_remaining hp w ks).mp hks
      exact ⟨q, hq⟩

/-- No kind is listed twice. -/
theorem nodup_expected {p : Place α} (hp : p.Distinct) : p.expected.Nodup := by
  cases p with
  | opening c rules =>
    have hkeywords : (rules.map Prod.fst).Nodup := hp
    have hmap := hkeywords.map fun k j (h : TokenKind.keyword k = .keyword j) =>
      TokenKind.keyword.inj h
    rwa [List.map_map] at hmap
  | link c join links step =>
    cases step with
    | done l =>
      rw [expected]
      split <;> decide
    | _ => simp [expected]
  | list c a entries step => cases step <;> simp [expected]
  | _ => simp [expected]

-- ============================================================================
-- Readings
-- ============================================================================

theorem distinct_read {p : Place α} (hp : p.Distinct) (ws : List Word) :
    (p.read ws).place.Distinct := by
  induction ws generalizing p with
  | nil => exact hp
  | cons w ws ih =>
    cases hnext : p.next w with
    | none => rwa [read_cons_of_none hnext]
    | some q =>
      rw [read_cons_of_some hnext]
      exact ih (distinct_of_next hnext)

/-- **A reading.** What may be written from the place that is reached is what the words that were
read leave of what may be written. -/
theorem remaining_read {p : Place α} (hp : p.Distinct) (ws : List Word) :
    (p.read ws).place.remaining = p.remaining.leftQuotient (kinds (p.read ws).words) := by
  induction ws generalizing p with
  | nil => rfl
  | cons w ws ih =>
    cases hnext : p.next w with
    | none =>
      rw [read_cons_of_none hnext]
      rfl
    | some q =>
      rw [read_cons_of_some hnext]
      show (q.read ws).place.remaining = _
      rw [ih (distinct_of_next hnext)]
      ext ks
      rw [Language.mem_leftQuotient, Language.mem_leftQuotient]
      show _ ↔ w.kind :: (kinds (q.read ws).words ++ ks) ∈ p.remaining
      rw [cons_mem_remaining hp, hnext]
      simp

/-- The first word that is left leads nowhere. -/
theorem next_eq_none_of_read {p : Place α} {w : Word} {ws more : List Word}
    (h : (p.read ws).rest = w :: more) : (p.read ws).place.next w = none := by
  induction ws generalizing p with
  | nil => exact absurd h (by simp [read])
  | cons v ws ih =>
    cases hnext : p.next v with
    | none =>
      rw [read_cons_of_none hnext] at h ⊢
      obtain ⟨rfl, -⟩ := List.cons.inj h
      exact hnext
    | some q =>
      rw [read_cons_of_some hnext] at h ⊢
      exact ih h

theorem exists_mem_read {p : Place α} (hp : ∃ ks, ks ∈ p.remaining) (ws : List Word) :
    ∃ ks, ks ∈ (p.read ws).place.remaining := by
  induction ws generalizing p with
  | nil => exact hp
  | cons w ws ih =>
    cases hnext : p.next w with
    | none => rwa [read_cons_of_none hnext]
    | some q =>
      rw [read_cons_of_some hnext]
      exact ih (exists_mem_of_next hnext)

theorem place_of_words_nil {p : Place α} {ws : List Word} (h : (p.read ws).words = []) :
    (p.read ws).place = p := by
  cases ws with
  | nil => rfl
  | cons w ws =>
    cases hnext : p.next w with
    | none => rw [read_cons_of_none hnext]
    | some q =>
      rw [read_cons_of_some hnext] at h
      exact absurd h (by simp)

end Place

-- ============================================================================
-- Faults
-- ============================================================================

section Faults

variable {α : Type} {p : Place α} {l : Line} {f : Fault}

/-- Reading stops right behind the words that were read. -/
theorem Place.read_stands (p : Place α) (l : Line) :
    (p.read l.words).words ++ [(p.read l.words).stop l.stop] <+: l.words ++ [l.stop] := by
  have hall := p.read_words_append_rest l.words
  rw [Reading.stop]
  cases hrest : (p.read l.words).rest with
  | nil =>
    rw [hrest, List.append_nil] at hall
    rw [hall]
    exact List.prefix_refl _
  | cons w more =>
    rw [hrest] at hall
    refine ⟨more ++ [l.stop], ?_⟩
    conv_rhs => rw [← hall]
    simp

/-- A line makes something up exactly if the rule has it. -/
theorem Place.exists_ok_iff (hp : p.Distinct) (hline : InLine l.words)
    (hstop : l.stop.kind.endsDeclaration = true) :
    (∃ result, (p.read l.words).outcome l.stop = .ok result) ↔ kinds l.words ∈ p.remaining := by
  have hrest : AtLineEnd ([] : List Word) := by simp [AtLineEnd]
  have hend := p.endsDeclaration_stop_iff hline hrest hstop
  rw [List.append_nil] at hend
  rw [kinds, mem_remaining_iff_read hp, ← hend, Option.isSome_iff_exists]
  simp only [Reading.outcome_eq_ok_iff, exists_and_left]

/-- Where reading stops, a kind is found that is not expected. -/
theorem Place.found_notMem_expected (hline : InLine l.words)
    (hstop : l.stop.kind.endsDeclaration = true)
    (h : (p.read l.words).outcome l.stop = .error f) : f.found.kind ∉ f.expected := by
  obtain ⟨rfl, hresult⟩ := Reading.outcome_eq_error_iff.mp h
  have hall := p.read_words_append_rest l.words
  show ((p.read l.words).stop l.stop).kind ∉ (p.read l.words).place.expected
  rw [Reading.stop] at hresult ⊢
  cases hrest : (p.read l.words).rest with
  | nil =>
    rw [hrest, List.headD_nil] at hresult
    rw [List.headD_nil, mem_expected_iff_result _ hstop, hresult hstop]
    simp
  | cons w more =>
    have hw : w ∈ l.words := hall ▸ List.mem_append_right _ (hrest ▸ List.mem_cons_self)
    rw [List.headD_cons, mem_expected_iff_next _ (hline w hw), next_eq_none_of_read hrest]
    simp

/-- **A fault is exact.** The words before it can be gone on with to a line, the word that is found
cannot follow them, and what is expected is just what can. -/
theorem Place.isExact_of_outcome (hp : p.Distinct) {opens : List Keyword}
    (hopens : p.expected = opens.map .keyword) (hviable : ∃ ks, ks ∈ p.remaining)
    (hline : InLine l.words) (hstop : l.stop.kind.endsDeclaration = true)
    (h : (p.read l.words).outcome l.stop = .error f) :
    f.IsExact p.remaining opens l (p.read l.words).words := by
  have hmisfit := found_notMem_expected hline hstop h
  obtain ⟨rfl, -⟩ := Reading.outcome_eq_error_iff.mp h
  have hplace := distinct_read hp l.words
  have hexpected : ∀ k, k ∈ (p.read l.words).place.expected ↔
      MayFollow p.remaining (kinds (p.read l.words).words) k := by
    intro k
    rw [mem_expected_iff hplace, remaining_read hp, mayFollow_leftQuotient]
  refine ⟨?_, ?_, fun hfollow => hmisfit ((hexpected _).mpr hfollow), hexpected,
    nodup_expected hplace, fun hnil => ?_⟩
  · exact p.read_stands l
  · obtain ⟨more, hmore⟩ := exists_mem_read hviable l.words
    rw [remaining_read hp] at hmore
    exact ⟨more, hmore⟩
  · rw [place_of_words_nil hnil]
    exact hopens

end Faults

end TimedNet
