/-
  TimedNet.Proofs.Session.Submission

  Drafts are accepted as a whole or not at all. An accepted draft adds one declaration, which is what
  the draft stands for, and at most a warning; a draft that is turned down adds one error and nothing
  to the store (`Store.submit_all_or_nothing`). A declaration of a text is submitted in the same way.
-/
import TimedNet.Proofs.Session.BoundsModes
import TimedNet.Proofs.Session.Refusal

namespace TimedNet

-- ============================================================================
-- What a draft stands for
-- ============================================================================

/-- The item that a draft declares, once its names are looked up. A number without a value counts
as 0; the constraints of a synchronization are taken as they are. -/
inductive DraftItem.StandsFor (s : Store) : DraftItem → Item → Prop
  | clock (size : Number UInt32) (name : Lexeme) :
    StandsFor s (.clock size name) (.clock name.text (size.value.getD 0))
  | int (size : Number UInt32) (min max initial : Number Int32) (name : Lexeme) :
    StandsFor s (.int size min max initial name)
      (.int name.text (size.value.getD 0) (min.value.getD 0) (max.value.getD 0)
        (initial.value.getD 0))
  | event (name : Lexeme) : StandsFor s (.event name) (.event name.text)
  | process (name : Lexeme) : StandsFor s (.process name) (.process name.text)
  | location {owner name : Lexeme} {p : ProcessRef} (howner : s.process? owner.text = some p) :
    StandsFor s (.location owner name) (.location p name.text)
  | edge {owner target source label : Lexeme} {p : ProcessRef} {t o : LocationRef} {e : EventRef}
    (howner : s.process? owner.text = some p) (htarget : s.location? p target.text = some t)
    (hsource : s.location? p source.text = some o) (hlabel : s.event? label.text = some e) :
    StandsFor s (.edge owner target source label) (.edge p t o e)
  | sync (constraints : List SyncConstraint) : StandsFor s (.sync constraints) (.sync constraints)

namespace Store

variable {s : Store} {check : BoundsCheck} {r : Report} {d : Draft}

/-- A draft is resolved to nothing but what it stands for. -/
theorem standsFor_of_resolve {i : DraftItem} {item : Item} (h : s.resolve i = .ok item) :
    i.StandsFor s item := by
  cases i with
  | clock size name =>
    obtain ⟨-, -, h⟩ := bind_eq_ok_iff.mp h
    obtain ⟨-, -, h⟩ := bind_eq_ok_iff.mp h
    obtain rfl := pure_eq_ok_iff.mp h
    exact .clock size name
  | int size min max initial name =>
    obtain ⟨-, -, h⟩ := bind_eq_ok_iff.mp h
    obtain ⟨-, -, h⟩ := bind_eq_ok_iff.mp h
    obtain rfl := pure_eq_ok_iff.mp h
    exact .int size min max initial name
  | event name =>
    obtain ⟨-, -, h⟩ := bind_eq_ok_iff.mp h
    obtain rfl := pure_eq_ok_iff.mp h
    exact .event name
  | process name =>
    obtain ⟨-, -, h⟩ := bind_eq_ok_iff.mp h
    obtain rfl := pure_eq_ok_iff.mp h
    exact .process name
  | location owner name =>
    obtain ⟨p, hp, h⟩ := bind_eq_ok_iff.mp h
    obtain ⟨-, -, h⟩ := bind_eq_ok_iff.mp h
    obtain rfl := pure_eq_ok_iff.mp h
    exact .location (findProcess_eq_ok_iff.mp hp)
  | edge owner target source label =>
    obtain ⟨p, hp, h⟩ := bind_eq_ok_iff.mp h
    obtain ⟨t, ht, h⟩ := bind_eq_ok_iff.mp h
    obtain ⟨o, ho, h⟩ := bind_eq_ok_iff.mp h
    obtain ⟨e, he, h⟩ := bind_eq_ok_iff.mp h
    obtain rfl := pure_eq_ok_iff.mp h
    exact .edge (findProcess_eq_ok_iff.mp hp) (findLocation_eq_ok_iff.mp ht)
      (findLocation_eq_ok_iff.mp ho) (findEvent_eq_ok_iff.mp he)
  | sync constraints =>
    obtain rfl := pure_eq_ok_iff.mp h
    exact .sync constraints

/-- Only an integer variable can be warned of. -/
theorem kind_of_checkBounds {i : DraftItem} {w : Diagnostic}
    (h : i.checkBounds check = .ok (some w)) : i.kind = .int := by
  obtain ⟨e, he, -⟩ := DraftItem.boundsProblem_of_checkBounds (Or.inr h)
  obtain ⟨_, _, _, _, _, _, _, _, rfl, -⟩ := DraftItem.exists_int_of_boundsProblem he
  rfl

-- ============================================================================
-- Submissions
-- ============================================================================

/-- A line that is read to its end is submitted: behind what is said about its parts stands what
the submission says, and the store is the one that the submission leaves. -/
theorem enter_of_outcome (check : BoundsCheck) (s : Store) (r : Report) {close : Word}
    {ws : List Word} {φ : Phrase} {attributes : Attributes}
    (h : (Phrase.opening.read ws).outcome close = .ok (φ, attributes)) :
    let notes := (Phrase.opening.read ws).parts.filterMap (Part.fault? s)
    let draft : Draft := ⟨φ.draft s, attributes, (Phrase.opening.read ws).span close⟩
    r.append (s.enter check close ws).diagnostics =
        (s.submit check (r.append notes) draft).report ∧
      (s.enter check close ws).store = (s.submit check r draft).store := by
  intro notes draft
  refine ⟨?_, ?_⟩
  · rw [enter_diagnostics_of_outcome check s h, Report.append_append, report_submit]
  · cases haccept : s.accept check draft with
    | error e => rw [enter_of_refused h haccept, submit_of_error haccept]
    | ok a => rw [enter_of_accepted h haccept, submit_of_ok haccept]

/-- Drafts, accepted and rejected ones mixed, lead to reachable stores. -/
theorem Reachable.submit (hs : s.Reachable) (check : BoundsCheck) (r : Report) (d : Draft) :
    (s.submit check r d).store.Reachable := by
  cases haccept : s.accept check d with
  | error e =>
    rw [submit_of_error haccept]
    exact hs
  | ok a =>
    obtain ⟨i, -, hfault, hstore⟩ := store_of_accept haccept
    rw [submit_of_ok haccept, hstore]
    exact hs.push hfault

end Store

namespace Submission

/-- A submission that was accepted: the store has one declaration more, the one that the draft
stands for, and nothing is said but a warning of bounds, where warnings were asked for. -/
structure Accepts (check : BoundsCheck) (s : Store) (r : Report) (d : Draft) (sub : Submission)
    (id : DeclarationId) (item : Item) (warnings : List Diagnostic) : Prop where
  id? : sub.id? = some id
  standsFor : d.item.StandsFor s item
  appends : s.Appends ⟨item, d.attributes, d.span⟩ id sub.store
  get? : sub.store.get? id = some ⟨item, d.attributes, d.span⟩
  report : sub.report = r.append warnings
  errorCount : sub.report.errorCount = r.errorCount
  atMostOne : warnings.length ≤ 1
  ofBounds : ∀ w ∈ warnings,
    w.isError = false ∧ w.code = .initialBounds ∧ check = .warn ∧ d.kind = .int

/-- A submission that was turned down: the store is as before, and one error is said. -/
structure Rejects (s : Store) (r : Report) (sub : Submission) (e : Diagnostic) : Prop where
  id? : sub.id? = none
  store : sub.store = s
  report : sub.report = r.append [e]
  isError : e.isError = true
  errorCount : sub.report.errorCount = r.errorCount + 1

end Submission

namespace Store

variable {s : Store}

/-- **All or nothing.** A reachable store either takes a draft or not. If it does, exactly one
declaration is added, the one that the draft stands for, and no error is said; at most there is a
warning, of the bounds of an integer variable where warnings were asked for. If it does not, the
store is as before, and exactly one error is said. -/
theorem submit_all_or_nothing (hs : s.Reachable) (check : BoundsCheck) (r : Report) (d : Draft) :
    (∃ id item warnings, (s.submit check r d).Accepts check s r d id item warnings) ∨
      ∃ e, (s.submit check r d).Rejects s r e := by
  cases haccept : s.accept check d with
  | error e =>
    have hsubmit : s.submit check r d = ⟨none, s, r.push e⟩ := submit_of_error haccept
    have herr : e.isError = true := (isSemantic_accept check s d e haccept).1
    refine Or.inr ⟨e, ?_⟩
    rw [hsubmit]
    exact ⟨rfl, rfl, rfl, herr, by simp [Report.push, herr]⟩
  | ok a =>
    have hsubmit : s.submit check r d = ⟨some a.id, a.store, r.append a.warning.toList⟩ :=
      submit_of_ok haccept
    obtain ⟨i, w, hresolve, hbounds, hfault, ha⟩ := accept_eq_ok_cases haccept
    subst ha
    have hwarns : ∀ d' ∈ w.toList,
        d'.isError = false ∧ d'.code = .initialBounds ∧ check = .warn ∧ d.kind = .int := by
      intro d' hd'
      obtain rfl := Option.mem_toList.mp hd'
      obtain ⟨hwarn, hcode⟩ := DraftItem.warns_of_checkBounds hbounds
      exact ⟨(isWarning_of_checkBounds hbounds).1, hcode, hwarn, kind_of_checkBounds hbounds⟩
    have happends := appends_push (d := ⟨i, d.attributes, d.span⟩) hs.keeps hfault
    have hcount : w.toList.countP Diagnostic.isError = 0 :=
      List.countP_eq_zero.mpr fun d' hd' => by simp [(hwarns d' hd').1]
    refine Or.inl ⟨s.nextId i.kind, i, w.toList, ?_⟩
    rw [hsubmit]
    refine
      { id? := rfl
        standsFor := standsFor_of_resolve hresolve
        appends := happends
        get? := (happends.get? _).trans (if_pos rfl)
        report := rfl
        errorCount := by rw [Report.errorCount_append, hcount, Nat.add_zero]
        atMostOne := by cases w <;> simp
        ofBounds := hwarns }

/-- An integer variable that begins outside of its bounds; it is of size 0 if that is not read. -/
def strayInt : Draft :=
  ⟨.int ⟨⟨"99999999999", default⟩, none⟩ ⟨⟨"0", default⟩, some 0⟩ ⟨⟨"1", default⟩, some 1⟩
    ⟨⟨"5", default⟩, some 5⟩ ⟨"n", default⟩, {}, default⟩

/-- A clock of a name that is taken; its size is 0. -/
def secondClock : Draft := ⟨.clock ⟨⟨"0", default⟩, some 0⟩ ⟨"x", default⟩, {}, default⟩

/-- With a warning the variable is accepted, as one of size 0; the clock is rejected with one error,
though two things are wrong with it. -/
theorem submit_all_or_nothing_pairSample :
    let taken := pairSample.submit .warn .empty strayInt
    let rejected := pairSample.submit .warn .empty secondClock
    (∃ id warnings, taken.Accepts .warn pairSample .empty strayInt id (.int "n" 0 0 1 5) warnings ∧
        warnings.length = 1) ∧
      ∃ e, rejected.Rejects pairSample .empty e ∧ e.code = .redeclared := by
  intro taken rejected
  have hreach : pairSample.Reachable := Reachable.empty.insertAll _
  have hid : taken.id? = some ⟨.int, 0⟩ := rfl
  have hsaid : taken.report.entries.length = 1 := by rfl
  have hnone : rejected.id? = none := rfl
  have hcode : rejected.report.entries.map Diagnostic.code = [.redeclared] := rfl
  constructor
  · rcases submit_all_or_nothing hreach .warn .empty strayInt with
      ⟨id, item, warnings, h⟩ | ⟨e, h⟩
    · have hitem : item = .int "n" 0 0 1 5 := by
        cases h.standsFor with
        | int => rfl
      subst hitem
      refine ⟨id, warnings, h, ?_⟩
      have hentries := congrArg (fun r => r.entries.length) h.report
      rw [hsaid, Report.entries_append] at hentries
      exact hentries.symm
    · exact absurd (hid.symm.trans h.id?) (by simp)
  · rcases submit_all_or_nothing hreach .warn .empty secondClock with
      ⟨id, item, warnings, h⟩ | ⟨e, h⟩
    · exact absurd (hnone.symm.trans h.id?) (by simp)
    · refine ⟨e, h, ?_⟩
      have hcodes := congrArg (fun r => r.entries.map Diagnostic.code) h.report
      rw [hcode, Report.entries_append] at hcodes
      exact (List.singleton_inj.mp hcodes).symm

end Store

end TimedNet
