/-
  TimedNet.Proofs.Session.CleanText

  Texts about which nothing is said that is an error. Such a text is read as the network that its
  lines declare, whatever the limit on errors (`parse_of_header`), and no other text is read as a
  network (`exists_header_of_parse`).
-/
import TimedNet.Proofs.Session.ErrorLimit
import TimedNet.Proofs.Session.LaterText

namespace TimedNet

variable {source : String} {options : Options} {n : System}

/-- A session that gives a network out has not given up. -/
theorem isFatal_of_parse (h : (parse source options).system = some n) :
    (parse source options).isFatal = false := by
  let u := Session.new (Token.scan source) (.ofText source) options .empty
  obtain ⟨-, -, hsome, hfatal, -⟩ := u.says_read
  have hread : u.read.1.isSome = true := Option.isSome_of_eq_some h
  exact hfatal.trans (hsome.mp hread).1

/-- **Lines without errors** are read as the network that they declare. -/
theorem parse_of_header {first : Line} {others : List Line} {name : Lexeme} {as : Attributes}
    (hlines : linesOf source.toList = first :: others)
    (hheader : (Header.opening.read first.words).outcome first.stop = .ok (name, as))
    (hclean : ∀ d ∈ (Store.empty.enterLines options.boundsCheck others).1, d.isError = false) :
    parse source options =
      ⟨some ⟨name.text, as, (Header.opening.read first.words).span first.stop,
          (Store.empty.enterLines options.boundsCheck others).2⟩,
        (Store.empty.enterLines options.boundsCheck others).1, false, options.sourceName⟩ := by
  let free : Options := { options with maxErrors := none }
  have hsays : linesSay options.boundsCheck first others =
      (Store.empty.enterLines options.boundsCheck others).1 := by
    rw [linesSay, hheader]
  have hdeclares : linesDeclare options.boundsCheck first others =
      some ⟨name.text, as, (Header.opening.read first.words).span first.stop,
        (Store.empty.enterLines options.boundsCheck others).2⟩ := by
    rw [linesDeclare, hheader]
  rw [← hsays] at hclean ⊢
  have hsystem : (parse source free).system = _ :=
    (system_parse_eq_some_iff rfl hlines).mpr ⟨hclean, hdeclares⟩
  have hsaid : (parse source free).diagnostics = linesSay options.boundsCheck first others :=
    diagnostics_parse rfl hlines
  have hfatal := isFatal_of_parse hsystem
  rw [parse_unlimited source options (Or.inr (Option.isSome_of_eq_some hsystem))]
  show Parsed.mk (parse source free).system (parse source free).diagnostics
    (parse source free).isFatal options.sourceName = _
  rw [hsystem, hsaid, hfatal]

/-- **A network** is one that the lines of its text declare, without an error. -/
theorem exists_header_of_parse (h : (parse source options).system = some n) :
    ∃ first others name as, linesOf source.toList = first :: others ∧
      (Header.opening.read first.words).outcome first.stop = .ok (name, as) ∧
      (∀ d ∈ (Store.empty.enterLines options.boundsCheck others).1, d.isError = false) ∧
      n = ⟨name.text, as, (Header.opening.read first.words).span first.stop,
        (Store.empty.enterLines options.boundsCheck others).2⟩ := by
  obtain ⟨first, others, hlines, -⟩ := lines_of_parse h
  rw [parse_unlimited source options (Or.inl (Option.isSome_of_eq_some h))] at h
  have hfree : ({ options with maxErrors := none } : Options).maxErrors = none := rfl
  obtain ⟨hclean, hdeclares⟩ := (system_parse_eq_some_iff hfree hlines).mp h
  cases hheader : (Header.opening.read first.words).outcome first.stop with
  | error f =>
    rw [linesDeclare, hheader] at hdeclares
    exact absurd hdeclares (by simp)
  | ok result =>
    rw [linesSay, hheader] at hclean
    rw [linesDeclare, hheader] at hdeclares
    exact ⟨first, others, result.1, result.2, hlines, hheader, hclean,
      (Option.some.inj hdeclares).symm⟩

end TimedNet
