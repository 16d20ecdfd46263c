/-
  TimedNet.Proofs.Session.Progress

  A session gets on with any words, also with such that end the text in its middle. A turn of the
  loop over the declarations takes at least one word of the segment that is next, all of them up to
  one that ends the text, and none of the segment behind it (`Turn.Takes`). So the turns of a run of
  the loop (`Runs`) are no more than there are segments (`Runs.length_le`), and where a session stops
  the text ends, unless it has given up because of too many errors (`reading_gets_on`).
-/
import TimedNet.Proofs.Grammar.LineReading
import TimedNet.Proofs.Session.LaterReadings

namespace TimedNet

-- ============================================================================
-- Turns
-- ============================================================================

/-- A turn of a reader: the words that it finds, and those that it leaves. -/
structure Turn where
  before : List Word
  after : List Word

namespace Turn

/-- A turn passes over the ends of lines and takes words of the segment behind them, all of it or
those down to a word that ends the text. If it takes all, it may pass the end of that line too. -/
structure Takes (t : Turn) (blank taken left behind : List Word) : Prop where
  before : t.before = blank ++ (taken ++ (left ++ behind))
  passed : ∀ w ∈ blank, w.isLineEnd = true
  segment : ∀ w ∈ taken ++ left, w.isLineEnd = false
  segmentEnd : AtLineEnd behind
  gain : taken ≠ []
  inText : ∀ w ∈ taken, w.kind ≠ .endOfFile
  atEnd : ∀ w ∈ left.head?, w.kind = .endOfFile
  after : t.after = left ++ behind ∨ left = [] ∧ t.after = passLineEnd behind

/-- A turn that stops where a declaration may end, or passes the end of the line that is there. -/
theorem exists_takes {ws more after : List Word} {w : Word} (hs : skipLineEnds ws = w :: more)
    (hw : w.kind ≠ .endOfFile)
    (hafter : after = passLineEnd (fromEnd (w :: more)) ∨ after = fromEnd (w :: more)) :
    ∃ blank taken left behind, Takes ⟨ws, after⟩ blank taken left behind := by
  obtain ⟨taken, left, behind, hsplit, hend, hinLine, hleft, hatEnd, hbehind⟩ :=
    exists_segment (w :: more)
  have hinside : w.kind.endsDeclaration = false := by
    have hline := not_isLineEnd_of_skipLineEnds hs
    exact TokenKind.endsDeclaration_eq_false (by simpa [Word.isLineEnd] using hline) hw
  refine ⟨ws.takeWhile Word.isLineEnd, taken, left, behind, ?_, ?_, ?_, hbehind, ?_, ?_, hatEnd, ?_⟩
  · rw [← hsplit, ← hs]
    exact List.takeWhile_append_dropWhile.symm
  · exact fun v hv => List.mem_takeWhile_imp hv
  · exact List.forall_mem_append.mpr ⟨isLineEnd_of_inLine hinLine, hleft⟩
  · -- otherwise the first word would be one at which a declaration ends
    rintro rfl
    rw [List.nil_append] at hsplit
    have hfirst := endsDeclaration_of_fromEnd (w :: more) w (by rw [hend, ← hsplit]; rfl)
    exact absurd hfirst (by simp [hinside])
  · intro v hv hkind
    have hin := hinLine v hv
    rw [hkind] at hin
    exact absurd hin (by decide)
  · rw [hend] at hafter
    cases left with
    | nil => exact hafter.elim (fun h => Or.inr ⟨rfl, h⟩) Or.inl
    | cons v left =>
      -- a word that ends the text is not passed
      have hv : v.isLineEnd = false := hleft v List.mem_cons_self
      rw [List.cons_append, passLineEnd, hv] at hafter
      exact Or.inl (hafter.elim id id)

section Segments

variable {t : Turn} {blank taken left behind : List Word} (h : t.Takes blank taken left behind)

include h

/-- The segment that a turn finds, and those behind it. -/
theorem Takes.lines_before : lines t.before = (taken ++ left) :: lines behind := by
  have hne : taken ++ left ≠ [] := fun hnil => h.gain (List.append_eq_nil_iff.mp hnil).1
  rw [h.before, lines, cut_ends h.passed, ← List.append_assoc]
  cases hbehind : behind with
  | nil => rw [List.append_nil, cut_last hne h.segment, lines, cut_nil]
  | cons e rest =>
    have he : e.isLineEnd = true := h.segmentEnd e (by rw [hbehind]; rfl)
    rw [cut_line hne h.segment he, lines, cut_end he]

/-- If it takes all of the segment, those behind it are left. -/
theorem Takes.lines_after (hleft : left = []) : lines t.after = lines behind := by
  subst hleft
  rcases h.after with hafter | ⟨-, hafter⟩
  · rw [hafter, List.nil_append]
  · rw [hafter, lines_passLineEnd]

/-- If a turn does not take all of the segment, the text ends where it stops. -/
theorem Takes.atEnd_after (hleft : left ≠ []) :
    ∃ w ws, skipLineEnds t.after = w :: ws ∧ w.kind = .endOfFile := by
  obtain ⟨w, ws, rfl⟩ := List.exists_cons_of_ne_nil hleft
  have hw : w.kind = .endOfFile := h.atEnd w rfl
  have hafter : t.after = w :: (ws ++ behind) := by
    rcases h.after with hafter | ⟨hnil, -⟩
    · exact hafter
    · exact absurd hnil hleft
  refine ⟨w, ws ++ behind, ?_, hw⟩
  rw [hafter, skipLineEnds, List.dropWhile_cons_of_neg (by simp [Word.isLineEnd, hw])]

end Segments

end Turn

namespace Session

-- ============================================================================
-- Runs
-- ============================================================================

/-- One turn of the loop: the declaration that comes next is entered into a store. -/
def turn (s : Session) (store : Store) : Store × Session :=
  let entry := store.enter s.options.boundsCheck s.close (skipLineEnds s.words)
  (entry.store, (s.say entry.diagnostics).goTo entry.rest)

/-- The runs of the loop over the declarations, turn by turn, with what they return. -/
inductive Runs : Session → Store → List Turn → Store × Session → Prop where
  /-- The text ends. -/
  | ended {s : Session} {store : Store}
      (hend : ∀ w ∈ (skipLineEnds s.words).head?, w.kind = .endOfFile) :
    Runs s store [] (store, s.goTo (skipLineEnds s.words))
  /-- There are too many errors behind a turn. -/
  | tooMany {s next : Session} {store store' : Store} {w : Word} {ws : List Word}
      (hs : skipLineEnds s.words = w :: ws) (hw : w.kind ≠ .endOfFile)
      (hturn : s.turn store = (store', next)) (hover : next.isOverLimit = true) :
    Runs s store [⟨s.words, next.words⟩] (store', next.abort)
  /-- Behind a turn the loop goes on. -/
  | goesOn {s next : Session} {store store' : Store} {w : Word} {ws : List Word}
      {turns : List Turn} {result : Store × Session} (hs : skipLineEnds s.words = w :: ws)
      (hw : w.kind ≠ .endOfFile) (hturn : s.turn store = (store', next))
      (hover : ¬ next.isOverLimit = true) (hrest : Runs next store' turns result) :
    Runs s store (⟨s.words, next.words⟩ :: turns) result

/-- **A turn gets on.** It takes at least one word of one segment, and none of those behind it. -/
theorem exists_takes_of_turn {s next : Session} {store store' : Store} {w : Word} {ws : List Word}
    (hs : skipLineEnds s.words = w :: ws) (hw : w.kind ≠ .endOfFile)
    (hturn : s.turn store = (store', next)) :
    ∃ blank taken left behind, Turn.Takes ⟨s.words, next.words⟩ blank taken left behind := by
  apply Turn.exists_takes hs hw
  have hwords : next.words = (Phrase.opening.read (w :: ws)).left .start s.close := by
    have hnext : (s.turn store).2 = next := congrArg Prod.snd hturn
    rw [← hnext, ← hs]
    exact Store.enter_rest ..
  rw [hwords]
  exact Phrase.opening.left_cases rfl s.close (w :: ws)

/-- The loop has a run, by its own recursion. -/
theorem exists_runs (s : Session) (store : Store) :
    ∃ turns, s.Runs store turns (s.readDeclarations store) := by
  induction s, store using readDeclarations.induct with
  | case1 s store hs =>
    rw [readDeclarations_of_nil store hs, ← hs]
    exact ⟨[], .ended (by simp [hs])⟩
  | case2 s store w ws hs hw =>
    rw [readDeclarations_of_cons store hs, if_pos hw, ← hs]
    exact ⟨[], .ended (by simp [hs, hw])⟩
  | case3 s store w ws hs hw entry next hover =>
    have hturn : s.turn store = (entry.store, next) := by rw [turn, hs]
    rw [readDeclarations_of_over hs hw rfl rfl hover]
    exact ⟨_, .tooMany hs hw hturn hover⟩
  | case4 s store w ws hs hw entry next hover ih =>
    have hturn : s.turn store = (entry.store, next) := by rw [turn, hs]
    obtain ⟨turns, hruns⟩ := ih
    rw [readDeclarations_of_not_over hs hw rfl rfl hover]
    exact ⟨_, .goesOn hs hw hturn hover hruns⟩

/-- A session that has given up because of too many errors, which is the last that it says. -/
structure IsCutOff (s : Session) : Prop where
  beyond : s.isOverLimit = true
  gaveUp : s.isFatal = true
  said : ∃ count, s.report.entries.getLast? =
    some ((Problem.tooManyErrors count).diagnostic s.current.span)

/-- Giving up is one more error. -/
theorem isCutOff_abort {s : Session} (h : s.isOverLimit = true) : s.abort.IsCutOff := by
  refine ⟨?_, rfl, s.errorCount, ?_⟩
  · have hcount : s.errorCount ≤ s.abort.errorCount := by
      have hsaid : s.abort.report.errorCount = s.report.errorCount + 1 := s.errorCount_say [_]
      show s.report.errorCount - s.earlierErrors ≤ s.abort.report.errorCount - s.earlierErrors
      omega
    have hoptions : s.abort.options = s.options := rfl
    unfold isOverLimit at h ⊢
    rw [hoptions]
    cases hlimit : s.options.maxErrors with
    | none => simp [hlimit] at h
    | some limit =>
      simp only [hlimit, decide_eq_true_eq] at h ⊢
      omega
  · show ((s.report.append [_]).entries.getLast? = _)
    rw [Report.entries_append, List.getLast?_concat]
    rfl

namespace Runs

variable {s : Session} {store : Store} {turns : List Turn} {result : Store × Session}

/-- A run returns what the loop does. -/
theorem result_eq (h : s.Runs store turns result) : s.readDeclarations store = result := by
  induction h with
  | @ended s store hend =>
    cases hs : skipLineEnds s.words with
    | nil => exact readDeclarations_of_nil store hs
    | cons w ws => rw [readDeclarations_of_cons store hs, if_pos (hend w (by rw [hs]; rfl))]
  | tooMany hs hw hturn hover =>
    rw [turn, hs] at hturn
    obtain ⟨rfl, rfl⟩ := Prod.mk.inj hturn
    exact readDeclarations_of_over hs hw rfl rfl hover
  | goesOn hs hw hturn hover hrest ih =>
    rw [turn, hs] at hturn
    obtain ⟨rfl, rfl⟩ := Prod.mk.inj hturn
    rw [readDeclarations_of_not_over hs hw rfl rfl hover, ih]

/-- **Each turn of a run gets on**, and so takes at least one word. -/
theorem exists_takes (h : s.Runs store turns result) :
    ∀ t ∈ turns, ∃ blank taken left behind, t.Takes blank taken left behind := by
  induction h with
  | ended hend => exact fun t ht => absurd ht List.not_mem_nil
  | tooMany hs hw hturn hover => exact List.forall_mem_singleton.mpr (exists_takes_of_turn hs hw hturn)
  | goesOn hs hw hturn hover hrest ih =>
    exact List.forall_mem_cons.mpr ⟨exists_takes_of_turn hs hw hturn, ih⟩

/-- Where the text ends there is no turn. -/
theorem eq_nil (h : s.Runs store turns result) {w : Word} {ws : List Word}
    (hs : skipLineEnds s.words = w :: ws) (hw : w.kind = .endOfFile) : turns = [] := by
  cases h with
  | ended hend => rfl
  | tooMany hs' hw' hturn hover =>
    exact absurd ((List.cons.inj (hs.symm.trans hs')).1 ▸ hw) hw'
  | goesOn hs' hw' hturn hover hrest =>
    exact absurd ((List.cons.inj (hs.symm.trans hs')).1 ▸ hw) hw'

/-- One turn more needs one segment more. -/
theorem length_lt (h : s.Runs store turns result) (hle : turns.length ≤ (lines s.words).length)
    {t : Turn} (ht : t.after = s.words) {blank taken left behind : List Word}
    (htakes : t.Takes blank taken left behind) : turns.length < (lines t.before).length := by
  rw [htakes.lines_before, List.length_cons]
  by_cases hleft : left = []
  · rw [← ht, htakes.lines_after hleft] at hle
    exact Nat.lt_succ_of_le hle
  · obtain ⟨w, ws, hs, hw⟩ := htakes.atEnd_after hleft
    rw [ht] at hs
    rw [h.eq_nil hs hw]
    exact Nat.zero_lt_succ _

/-- **A run has no more turns than the words have segments.** -/
theorem length_le (h : s.Runs store turns result) :
    turns.length ≤ (lines s.words).length := by
  induction h with
  | ended hend => exact Nat.zero_le _
  | tooMany hs hw hturn hover =>
    obtain ⟨blank, taken, left, behind, htakes⟩ := exists_takes_of_turn hs hw hturn
    have hlines := htakes.lines_before
    rw [hlines]
    exact Nat.succ_le_succ (Nat.zero_le _)
  | goesOn hs hw hturn hover hrest ih =>
    obtain ⟨blank, taken, left, behind, htakes⟩ := exists_takes_of_turn hs hw hturn
    exact hrest.length_lt ih rfl htakes

/-- A run stops where the text ends, or it is cut off. -/
theorem stops (h : s.Runs store turns result) (hclose : s.close.kind = .endOfFile) :
    result.2.current.kind = .endOfFile ∨ result.2.IsCutOff := by
  induction h with
  | @ended s store hend =>
    left
    show ((skipLineEnds s.words).headD s.close).kind = .endOfFile
    cases hs : skipLineEnds s.words with
    | nil => exact hclose
    | cons w ws => exact hend w (by rw [hs]; rfl)
  | tooMany hs hw hturn hover => exact Or.inr (isCutOff_abort hover)
  | @goesOn s next store store' w ws turns result hs hw hturn hover hrest ih =>
    have hnext : (s.turn store).2 = next := congrArg Prod.snd hturn
    exact ih (hnext ▸ hclose)

end Runs

-- ============================================================================
-- Readings
-- ============================================================================

/-- The declaration of the network is taken as any other. -/
theorem exists_takes_of_readHeader {s t : Session} {network : System}
    (h : s.readHeader = (some network, t)) :
    ∃ blank taken left behind, Turn.Takes ⟨s.words, t.words⟩ blank taken left behind := by
  unfold readHeader at h
  dsimp only at h
  split at h
  · next name as houtcome =>
    obtain ⟨-, rfl⟩ := Prod.mk.inj h
    have hplace := (Reading.outcome_eq_ok_iff.mp houtcome).2
    have hrest := Header.opening.rest_of_outcome houtcome
    have hleft : (Header.opening.read (skipLineEnds s.words)).left .header s.close =
        passLineEnd (fromEnd (skipLineEnds s.words)) := by
      rw [Reading.left, houtcome, hrest]
    cases hs : skipLineEnds s.words with
    | nil =>
      rw [hs] at hplace
      exact absurd hplace (by simp [Place.read, Header.opening, Place.result?])
    | cons w ws =>
      have hw : w.kind ≠ .endOfFile := by
        intro hkind
        have hnext : Header.opening.next w = none :=
          Header.opening.next_eq_none (by rw [hkind]; rfl)
        rw [hs, Place.read_cons_of_none hnext] at hplace
        exact absurd hplace (by simp [Header.opening, Place.result?])
      exact Turn.exists_takes hs hw (Or.inl (hs ▸ hleft))
  · exact absurd h (by simp)

/-- Without it, nothing but the end of the text is left. -/
theorem current_of_readHeader {s t : Session} (h : s.readHeader = (none, t))
    (hclose : s.close.kind = .endOfFile) : t.current.kind = .endOfFile := by
  unfold readHeader at h
  dsimp only at h
  split at h
  · exact absurd h (by simp)
  · next f houtcome =>
    obtain ⟨-, rfl⟩ := Prod.mk.inj h
    show (((Header.opening.read (skipLineEnds s.words)).left .header s.close).headD s.close).kind = _
    rw [Reading.left, houtcome]
    have hhead := List.head?_dropWhile_not (fun w : Word => !Context.header.resumesAt w.kind)
      (Header.opening.read (skipLineEnds s.words)).rest
    dsimp only
    rw [Context.resume]
    cases hrest : (Header.opening.read (skipLineEnds s.words)).rest.dropWhile
        (fun w => !Context.header.resumesAt w.kind) with
    | nil => exact hclose
    | cons w ws =>
      rw [hrest] at hhead
      simpa [Context.resumesAt, Context.isFatal] using hhead

theorem stops_build (s : Session) (hclose : s.close.kind = .endOfFile) :
    s.build.current.kind = .endOfFile ∨ s.build.IsCutOff := by
  have hstays := s.close_readHeader
  rcases hread : s.readHeader with ⟨network, t⟩
  rw [hread] at hstays
  cases network with
  | none =>
    rw [build_of_none hread]
    exact Or.inl (current_of_readHeader hread hclose)
  | some network =>
    obtain ⟨turns, hruns⟩ := t.exists_runs .empty
    rw [build_of_some hread]
    refine (hruns.stops (hstays ▸ hclose)).imp id fun h => ?_
    exact ⟨h.beyond, h.gaveUp, h.said⟩

/-- Giving the network out does not move the session. -/
theorem stops_read (s : Session) (hclose : s.close.kind = .endOfFile) :
    s.read.2.current.kind = .endOfFile ∨ s.read.2.IsCutOff := by
  have hbuild := s.stops_build hclose
  unfold read
  dsimp only
  split
  · exact hbuild
  · exact hbuild.imp id fun h => ⟨h.beyond, h.gaveUp, h.said⟩

/-- No reading touches what ends the text. -/
theorem close_iterate_read (s : Session) (hclose : s.close.kind = .endOfFile) (calls : Nat) :
    ((fun t : Session => t.read.2)^[calls] s).close.kind = .endOfFile := by
  induction calls with
  | zero => exact hclose
  | succ calls ih =>
    rw [Function.iterate_succ_apply']
    exact (isSpent_read _ ih).close

/-- **Readings get on.** Over any tokens, among them such as end the text in its middle, with any
options and behind any number of earlier readings: if the network is declared, the loop over the
other declarations has a run, and in each run every turn takes words of one segment, so that there
are fewer turns than segments, one of which declares the network. The session stops where the text
ends, unless it is cut off because of too many errors. -/
theorem reading_gets_on (ts : List Token) (index : LineIndex) (options : Options)
    (report : Report) (calls : Nat) :
    let s := (fun t : Session => t.read.2)^[calls] (new ts index options report)
    (∀ network t, s.readHeader = (some network, t) →
      (∃ turns, t.Runs .empty turns (t.readDeclarations .empty)) ∧
      ∀ turns result, t.Runs .empty turns result →
        result = t.readDeclarations .empty ∧
        (∀ turn ∈ turns, ∃ blank taken left behind, turn.Takes blank taken left behind) ∧
        turns.length < (lines s.words).length) ∧
    (s.read.2.current.kind = .endOfFile ∨ s.read.2.IsCutOff) := by
  intro s
  have hclose : s.close.kind = .endOfFile := close_iterate_read _ rfl calls
  refine ⟨fun network t hheader => ⟨t.exists_runs .empty, fun turns result hruns => ?_⟩,
    s.stops_read hclose⟩
  obtain ⟨blank, taken, left, behind, htakes⟩ := exists_takes_of_readHeader hheader
  exact ⟨hruns.result_eq.symm, hruns.exists_takes, hruns.length_lt hruns.length_le rfl htakes⟩

/-- A token that ends the text in the middle of a line is where the session stops. -/
example :
    let ts := [Token.ofText (.keyword .system) "system" 0, .ofText .colon ":" 6,
      .ofText .ident "S" 7, .ofText .endOfLine "\n" 8, .ofText .invalid "$" 9,
      .ofText .text "x" 10, .ofText .endOfFile "" 11, .ofText .endOfLine "\n" 11,
      .ofText (.keyword .event) "event" 12]
    let after := (new ts ⟨[9, 12], 17⟩ {} .empty).read.2
    after.words.map Word.kind = [.endOfFile, .endOfLine, .keyword .event] ∧
      after.isFatal = false ∧ after.report.entries.map Diagnostic.code = [.invalidToken] := by
  decide +kernel

end Session

end TimedNet
