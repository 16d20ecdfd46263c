/-
  TimedNet.Proofs.Session.LaterReadings

  A session yields at most one network. The first reading ends at the end of the text, which is
  never passed, or by giving up, which is never taken back: the session is spent (`isSpent_build`).
  Where the text has ended nothing declares a network, so a spent session gives up, if it has not
  done so already, and is spent again (`IsSpent.read`); what is left to read, and a network that was
  read and not given out, make no difference.
-/
import TimedNet.Proofs.Session.Verdict

namespace TimedNet

namespace Session

/-- A session is spent if it has given up or has come to the end of the text. -/
structure IsSpent (s : Session) : Prop where
  close : s.close.kind = .endOfFile
  ended : s.isFatal = true ∨ s.current.kind = .endOfFile

-- ============================================================================
-- The first reading
-- ============================================================================

/-- Reading the declaration of the network does not touch what ends the text. -/
@[simp] theorem close_readHeader (s : Session) : s.readHeader.2.close = s.close := by
  unfold readHeader
  dsimp only
  split <;> rfl

/-- The loop over the declarations leaves a spent session behind: without words it is at the word
that ends the text, and a word of that kind among the others it does not pass either. -/
theorem isSpent_readDeclarations (s : Session) (store : Store)
    (hclose : s.close.kind = .endOfFile) : (s.readDeclarations store).2.IsSpent := by
  induction s, store using readDeclarations.induct with
  | case1 s store hs =>
    rw [readDeclarations_of_nil store hs]
    exact ⟨hclose, Or.inr hclose⟩
  | case2 s store w ws hs hw =>
    rw [readDeclarations_of_cons store hs, if_pos hw]
    exact ⟨hclose, Or.inr hw⟩
  | case3 s store w ws hs hw entry next hover =>
    rw [readDeclarations_of_over hs hw rfl rfl hover]
    exact ⟨hclose, Or.inl rfl⟩
  | case4 s store w ws hs hw entry next hover ih =>
    rw [readDeclarations_of_not_over hs hw rfl rfl hover]
    exact ih hclose

/-- Whatever a session was before, it is spent when it has built what it can. -/
theorem isSpent_build (s : Session) (hclose : s.close.kind = .endOfFile) : s.build.IsSpent := by
  have hgave := @isFatal_of_readHeader s
  have hstays := s.close_readHeader
  rcases hread : s.readHeader with ⟨network, t⟩
  rw [hread] at hgave hstays
  have htclose : t.close.kind = .endOfFile := by rw [hstays, hclose]
  cases network with
  | none =>
    rw [build_of_none hread]
    exact ⟨htclose, Or.inl (hgave rfl)⟩
  | some network =>
    rw [build_of_some hread]
    obtain ⟨hend, hover⟩ := t.isSpent_readDeclarations .empty htclose
    exact ⟨hend, hover⟩

/-- Giving the network out changes neither what is left to read nor whether the session gave up. -/
theorem isSpent_read (s : Session) (hclose : s.close.kind = .endOfFile) : s.read.2.IsSpent := by
  have hbuild := s.isSpent_build hclose
  unfold read
  dsimp only
  split
  · exact hbuild
  · exact ⟨hbuild.close, hbuild.ended⟩

-- ============================================================================
-- Later readings
-- ============================================================================

/-- At the end of the text nothing declares the network. -/
theorem readHeader_of_atEnd {s : Session} (h : s.current.kind = .endOfFile) :
    s.readHeader.1 = none := by
  have hstop : (Header.opening.read (skipLineEnds s.words)).place.result? = none := by
    cases hwords : s.words with
    | nil => rfl
    | cons w ws =>
      have hkind : w.kind = .endOfFile := by simpa [current, hwords] using h
      have hskip : skipLineEnds (w :: ws) = w :: ws := by simp [skipLineEnds, Word.isLineEnd, hkind]
      have hnext : Header.opening.next w = none := by simp [Header.opening, Place.next, hkind]
      rw [hskip, Place.read_cons_of_none hnext]
      rfl
  unfold readHeader
  dsimp only
  split
  · next name as houtcome =>
    have hresult := (Reading.outcome_eq_ok_iff.mp houtcome).2
    exact absurd (hstop.symm.trans hresult) (by simp)
  · rfl

namespace IsSpent

variable {s : Session}

/-- Building on, a spent session gives up at the latest. -/
theorem isFatal_build (h : s.IsSpent) : s.build.isFatal = true := by
  rcases h.ended with hgave | hend
  · obtain ⟨ds, hsays, -⟩ := s.says_build
    exact hsays.isFatal hgave
  · have hnone := readHeader_of_atEnd hend
    rw [build_of_none (Prod.ext hnone rfl)]
    exact isFatal_of_readHeader hnone

/-- **One more reading.** A spent session gives no network, it has given up, and it is spent. -/
theorem read (h : s.IsSpent) :
    s.read.1 = none ∧ s.read.2.isFatal = true ∧ s.read.2.IsSpent := by
  have hfatal := h.isFatal_build
  rw [read_of_bad (Or.inl hfatal)]
  exact ⟨rfl, hfatal, s.isSpent_build h.close⟩

/-- Any number of further readings leave it spent. -/
theorem iterate_read (h : s.IsSpent) (calls : Nat) :
    ((fun t : Session => t.read.2)^[calls] s).IsSpent := by
  induction calls with
  | zero => exact h
  | succ calls ih =>
    rw [Function.iterate_succ_apply']
    exact ih.read.2.2

end IsSpent

/-- **At most one network.** Over any tokens, among them such as end the text in its middle, with
any options and behind anything that a report holds already, no reading after the first one gives a
network. Each leaves a session behind that has given up, and adds to the report only. -/
theorem yields_at_most_one_network (ts : List Token) (index : LineIndex) (options : Options)
    (report : Report) (calls : Nat) :
    let s := (fun t : Session => t.read.2)^[calls] (new ts index options report).read.2
    s.read.1 = none ∧ s.read.2.isFatal = true ∧
      ∃ added, s.read.2.report = s.report.append added ∧
        s.read.2.report.entries = s.report.entries ++ added := by
  intro s
  have hspent : s.IsSpent := ((new ts index options report).isSpent_read rfl).iterate_read calls
  obtain ⟨hnone, hfatal, -⟩ := hspent.read
  obtain ⟨added, hsays, -⟩ := s.says_read
  exact ⟨hnone, hfatal, added, hsays.report, hsays.entries⟩

/-- A second declaration of a network, behind a token that ends the text, is never read. -/
example :
    let ts := [Token.ofText (.keyword .system) "system" 0, .ofText .colon ":" 6,
      .ofText .ident "S" 7, .ofText .endOfFile "" 8, .ofText (.keyword .system) "system" 9,
      .ofText .colon ":" 15, .ofText .ident "T" 16]
    let first := (new ts ⟨[9], 17⟩ {} .empty).read
    first.1.map System.name = some "S" ∧ first.2.isFatal = false ∧
      first.2.read.1 = none ∧ first.2.read.2.isFatal = true ∧
      first.2.read.2.report.entries.map Diagnostic.code = [.unexpectedEnd] := by
  decide +kernel

end Session

end TimedNet
