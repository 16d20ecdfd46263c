/-
  TimedNet.Proofs.Session.FirstLines

  A session enters the first lines of what is left to read: all of them, or those down to the one
  with which there are too many errors (`readDeclarations_enters`). So with any limit on errors,
  what is said about a text is the fault of its first line, or what is said about lines that follow
  it, perhaps with one more error where the session gave up (`diagnostics_cases`).
-/
import TimedNet.Proofs.Session.ByLine

namespace TimedNet

namespace Session

theorem current_mem (u : Session) : u.current ∈ u.words ++ [u.close] := by
  rw [current]
  cases u.words <;> simp

/-- On the way from `u` to `t` a session gave up. It has a limit on errors, and it says that there
are too many where it stands, at a word of those that were left to read. -/
structure GaveUp (u t : Session) (last : List Diagnostic) : Prop where
  limit : u.options.maxErrors ≠ none
  current : t.current ∈ u.words ++ [u.close]
  said : ∃ count, last = [(Problem.tooManyErrors count).diagnostic t.current.span]

/-- From `u` to `t` a session enters the first of some lines into a store, and if these are not
all, it gives up. -/
def EntersFirst (u : Session) (s : Store) (ls : List Line) (t : Session) : Prop :=
  ∃ upper lower last, ls = upper ++ lower ∧
    t.report = u.report.append ((s.enterLines u.options.boundsCheck upper).1 ++ last) ∧
    (last = [] ∧ lower = [] ∨ u.GaveUp t last)

/-- The session `next` has some of the words left to read that `u` had, and reads them alike. -/
structure GoesOnTo (u next : Session) : Prop where
  words : next.words <:+ u.words
  close : next.close = u.close
  options : next.options = u.options

/-- What is left behind some words was left before them. -/
theorem GoesOnTo.gaveUp {u next t : Session} (h : u.GoesOnTo next) {last : List Diagnostic}
    (hgave : next.GaveUp t last) : u.GaveUp t last := by
  refine ⟨h.options ▸ hgave.limit, ?_, hgave.said⟩
  have hcurrent := hgave.current
  rw [h.close] at hcurrent
  exact (h.words.sublist.append_right [u.close]).subset hcurrent

section EntersFirst

variable {u next t : Session} {s : Store} {l : Line} {ls : List Line} (hnext : u.GoesOnTo next)
  (hreport : next.report =
    u.report.append (s.enter u.options.boundsCheck l.stop l.words).diagnostics)

include hnext hreport

/-- The session gives up behind the first line. -/
theorem entersFirst_abort (hover : next.isOverLimit = true) :
    u.EntersFirst s (l :: ls) next.abort := by
  have hone : (s.enterLines u.options.boundsCheck [l]).1 =
      (s.enter u.options.boundsCheck l.stop l.words).diagnostics := List.append_nil _
  have hgave : next.GaveUp next.abort
      [(Problem.tooManyErrors next.errorCount).diagnostic next.current.span] :=
    ⟨fun hnone => not_isOverLimit_of_none hnone hover, next.current_mem, _, rfl⟩
  refine ⟨[l], ls, _, rfl, ?_, Or.inr (hnext.gaveUp hgave)⟩
  rw [hone, Report.append_append, ← hreport]
  rfl

/-- The session goes on behind the first line. -/
theorem EntersFirst.cons
    (h : next.EntersFirst (s.enter u.options.boundsCheck l.stop l.words).store ls t) :
    u.EntersFirst s (l :: ls) t := by
  obtain ⟨upper, lower, last, rfl, hsaid, hlast⟩ := h
  refine ⟨l :: upper, lower, last, rfl, ?_, hlast.imp_right hnext.gaveUp⟩
  rw [hsaid, hreport, hnext.options, Store.enterLines, List.append_assoc, ← Report.append_append]

end EntersFirst

/-- **The loop over the lines**, with or without a limit on errors, by the recursion on the words
that are left. -/
theorem readDeclarations_enters (u : Session) (s : Store)
    (hfile : ∀ w ∈ u.words, w.kind ≠ .endOfFile) :
    u.EntersFirst s (endedLines u.close [] u.words) (u.readDeclarations s).2 := by
  induction u, s using readDeclarations.induct with
  | case1 u s hs =>
    rw [readDeclarations_of_nil s hs, ← endedLines_skipLineEnds, hs]
    exact ⟨[], [], [], rfl, rfl, Or.inl ⟨rfl, rfl⟩⟩
  | case2 u s w ws hs hw =>
    have hmem : w ∈ skipLineEnds u.words := by rw [hs]; exact List.mem_cons_self
    exact absurd hw (hfile w (List.dropWhile_subset _ hmem))
  | case3 u s w ws hs hw entry next hover =>
    obtain ⟨l, hlines, hdiagnostics, -, hsuffix⟩ :=
      s.enter_first_line u.options.boundsCheck u.close hfile hs
    have hreport : next.report =
        u.report.append (s.enter u.options.boundsCheck l.stop l.words).diagnostics :=
      congrArg u.report.append hdiagnostics
    have hnext : u.GoesOnTo next := ⟨hsuffix, rfl, rfl⟩
    rw [readDeclarations_of_over hs hw rfl rfl hover, hlines]
    exact entersFirst_abort hnext hreport hover
  | case4 u s w ws hs hw entry next hover ih =>
    obtain ⟨l, hlines, hdiagnostics, hstore, hsuffix⟩ :=
      s.enter_first_line u.options.boundsCheck u.close hfile hs
    have hreport : next.report =
        u.report.append (s.enter u.options.boundsCheck l.stop l.words).diagnostics :=
      congrArg u.report.append hdiagnostics
    have hstore : entry.store = (s.enter u.options.boundsCheck l.stop l.words).store := hstore
    have hmore : next.EntersFirst (s.enter u.options.boundsCheck l.stop l.words).store
        (endedLines u.close [] entry.rest) (next.readDeclarations entry.store).2 :=
      hstore ▸ ih fun v hv => hfile v (hsuffix.subset hv)
    have hloop : u.readDeclarations s = next.readDeclarations entry.store :=
      readDeclarations_of_not_over hs hw rfl rfl hover
    have hnext : u.GoesOnTo next := ⟨hsuffix, rfl, rfl⟩
    rw [hloop, hlines]
    exact hmore.cons hnext hreport

/-- **A reading.** The first line does not declare the network, and its fault is all that is said;
or it does, and the session enters the first of the other lines. -/
theorem read_cases (u : Session) (hclose : u.close.kind.endsDeclaration = true)
    (hfile : ∀ w ∈ u.words, w.kind ≠ .endOfFile) :
    (∃ f, (Header.opening.read u.firstLine.words).outcome u.firstLine.stop = .error f ∧
        u.read.2.report = u.report.append [f.diagnostic]) ∨
      ∃ others, endedLines u.close [] u.words = u.firstLine :: others ∧
        u.EntersFirst .empty others u.read.2 := by
  have hread : u.read.2.report = u.build.report ∧ u.read.2.current = u.build.current := by
    unfold read
    dsimp only
    split <;> exact ⟨rfl, rfl⟩
  rw [hread.1, firstLine]
  cases hlines : endedLines u.close [] u.words with
  | nil =>
    obtain ⟨f, ws, houtcome, hheader⟩ := u.readHeader_of_nil hfile hlines
    rw [build_of_none hheader]
    exact Or.inl ⟨f, houtcome, rfl⟩
  | cons first others =>
    rcases u.readHeader_by_line hclose hfile hlines with
      ⟨f, ws, houtcome, hheader⟩ | ⟨name, as, ws, -, hheader, rfl, hsuffix⟩
    · rw [build_of_none hheader]
      exact Or.inl ⟨f, houtcome, rfl⟩
    · let t := u.goTo ws
      obtain ⟨upper, lower, last, hothers, hreport, hlast⟩ :=
        t.readDeclarations_enters .empty fun w hw => hfile w (hsuffix.subset hw)
      have hbuild : u.build.report = (t.readDeclarations .empty).2.report ∧
          u.build.current = (t.readDeclarations .empty).2.current := by
        rw [build_of_some hheader]
        exact ⟨rfl, rfl⟩
      refine Or.inr ⟨_, rfl, upper, lower, last, hothers, ?_, hlast.imp_right fun hgave => ?_⟩
      · rw [hread.1, hbuild.1, hreport]
        rfl
      · have hnext : u.GoesOnTo t := ⟨hsuffix, rfl, rfl⟩
        have hsession := hnext.gaveUp hgave
        have hstands : u.read.2.current = (t.readDeclarations .empty).2.current :=
          hread.2.trans hbuild.2
        exact ⟨hsession.limit, hstands ▸ hsession.current, hstands ▸ hsession.said⟩

end Session

/-- **What is said about a text**, with or without a limit on errors: the fault of a line that has
to declare the network, or what is said about lines behind it, and then perhaps that there are too
many errors. -/
theorem diagnostics_cases (source : String) (options : Options) :
    let session := Session.new (Token.scan source) (.ofText source) options .empty
    (∃ l f, (l ∈ linesOf source.toList ∨ l = ⟨[], endOf source.toList⟩) ∧
        (Header.opening.read l.words).outcome l.stop = .error f ∧
        (parse source options).diagnostics = [f.diagnostic]) ∨
      ∃ first upper lower last, linesOf source.toList = first :: (upper ++ lower) ∧
        (parse source options).diagnostics =
          (Store.empty.enterLines options.boundsCheck upper).1 ++ last ∧
        (last = [] ∨ session.GaveUp session.read.2 last) := by
  intro session
  have hsaid : ∀ ds, session.read.2.report = session.report.append ds →
      (parse source options).diagnostics = ds := by
    intro ds hreport
    show session.read.2.report.entries = ds
    rw [hreport, Report.entries_append]
    rfl
  rcases session.read_cases rfl (kind_ne_of_mem_wordsOf source.toList) with
    ⟨f, houtcome, hreport⟩ | ⟨others, hlines, upper, lower, last, rfl, hreport, hlast⟩
  · refine Or.inl ⟨session.firstLine, f, ?_, houtcome, hsaid _ hreport⟩
    exact session.forall_firstLine
      (P := fun l => l ∈ linesOf source.toList ∨ l = ⟨[], endOf source.toList⟩)
      (Or.inr rfl) fun l hl => Or.inl hl
  · exact Or.inr ⟨_, upper, lower, last, hlines, hsaid _ hreport, hlast.imp_left And.left⟩

end TimedNet
