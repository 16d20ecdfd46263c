/-
  TimedNet.Proofs.Session.Refusal

  The checks of a draft and those of the store are made apart: the first go by names, the others by
  references. In a reachable store they agree. What a name leads to is there, so the store takes
  whatever passed the checks of its draft (`Reachable.fault?_of_resolve`); only a synchronization
  comes with references that were looked up before, and these stay valid while the store grows
  (`Resolves.mono`). So a report never comes to say that the store refuses a declaration, unless a
  synchronization is submitted with a reference to what is not there (`refused_iff_dangling`).
-/
import TimedNet.Store.Submission
import TimedNet.Proofs.Session.Stores
import TimedNet.Proofs.Session.Verdict

namespace TimedNet

/-- A fault has a code of the syntax. -/
theorem Fault.code_ne (f : Fault) : f.diagnostic.code ≠ .refused := by
  intro hcode
  have hsyntactic := f.isSyntactic_diagnostic
  rw [Diagnostic.isSyntactic, hcode] at hsyntactic
  exact absurd hsyntactic (by decide)

namespace Store

-- ============================================================================
-- What is found is there
-- ============================================================================

section Found

variable {s : Store}

/-- A reference that a name leads to is one to a declaration of that name. -/
theorem Reachable.get?_of_ref? (hs : s.Reachable) {k : Kind} {scope : Scope}
    (hscope : scope.kinds = [k]) {name : String} {r : Ref k}
    (h : s.ref? k scope name = some r) :
    ∃ d, s.get? r.id = some d ∧ d.key? = some (scope, name) := by
  obtain ⟨d, hmem, hkey⟩ := (hs.keeps.ref?_eq_some_iff hscope).mp h
  exact ⟨d, hs.keeps.get?_of_mem hmem, hkey⟩

theorem Reachable.holds_process (hs : s.Reachable) {l : Lexeme} {p : ProcessRef}
    (h : s.findProcess l = .ok p) : (Check.process p).Holds s := by
  obtain ⟨d, hget, -⟩ := hs.get?_of_ref? (k := .process) rfl (findProcess_eq_ok_iff.mp h)
  exact ⟨d, hget⟩

theorem Reachable.holds_event (hs : s.Reachable) {l : Lexeme} {e : EventRef}
    (h : s.findEvent l = .ok e) : (Check.event e).Holds s := by
  obtain ⟨d, hget, -⟩ := hs.get?_of_ref? (k := .event) rfl (findEvent_eq_ok_iff.mp h)
  exact ⟨d, hget⟩

/-- Only locations of a process have names in its namespace. -/
theorem Reachable.holds_location (hs : s.Reachable) {p : ProcessRef} {owner l : Lexeme}
    {r : LocationRef} (h : s.findLocation p owner l = .ok r) : (Check.location p r).Holds s := by
  obtain ⟨⟨item, attributes, span⟩, hget, hkey⟩ :=
    hs.get?_of_ref? (show (Scope.locations p).kinds = [.location] from rfl)
      (findLocation_eq_ok_iff.mp h)
  cases item with
  | location q name =>
    obtain ⟨hscope, -⟩ := Prod.mk.inj (Option.some.inj hkey)
    obtain rfl := Scope.locations.inj hscope
    exact ⟨name, attributes, span, hget⟩
  | _ => exact absurd hkey (by simp [Declaration.key?, Item.key?])

theorem Reachable.holds_name (hs : s.Reachable) {scope : Scope} {name : Lexeme}
    {problem : Kind → Problem} {u : Unit} (h : s.checkFree scope name problem = .ok u) :
    (Check.name scope name.text).Holds s :=
  hs.keeps.holder?_eq_none_iff.mp (checkFree_eq_ok_iff.mp h)

/-- **The checks of a draft imply those of the store**, but for a synchronization, of which the
references are not looked up anew. -/
theorem Reachable.fault?_of_resolve (hs : s.Reachable) {i : DraftItem} (hkind : i.kind ≠ .sync)
    {item : Item} (h : s.resolve i = .ok item) : s.fault? item = none := by
  rw [hs.keeps.fault?_eq_none_iff]
  cases i with
  | clock size name =>
    obtain ⟨_, hfree, h⟩ := bind_eq_ok_iff.mp h
    obtain ⟨_, -, h⟩ := bind_eq_ok_iff.mp h
    obtain rfl := pure_eq_ok_iff.mp h
    simpa [Item.checks] using hs.holds_name hfree
  | int size min max initial name =>
    obtain ⟨_, hfree, h⟩ := bind_eq_ok_iff.mp h
    obtain ⟨_, -, h⟩ := bind_eq_ok_iff.mp h
    obtain rfl := pure_eq_ok_iff.mp h
    simpa [Item.checks] using hs.holds_name hfree
  | event name =>
    obtain ⟨_, hfree, h⟩ := bind_eq_ok_iff.mp h
    obtain rfl := pure_eq_ok_iff.mp h
    simpa [Item.checks] using hs.holds_name hfree
  | process name =>
    obtain ⟨_, hfree, h⟩ := bind_eq_ok_iff.mp h
    obtain rfl := pure_eq_ok_iff.mp h
    simpa [Item.checks] using hs.holds_name hfree
  | location owner name =>
    obtain ⟨p, howner, h⟩ := bind_eq_ok_iff.mp h
    obtain ⟨_, hfree, h⟩ := bind_eq_ok_iff.mp h
    obtain rfl := pure_eq_ok_iff.mp h
    simpa [Item.checks] using ⟨hs.holds_process howner, hs.holds_name hfree⟩
  | edge owner target source label =>
    obtain ⟨p, howner, h⟩ := bind_eq_ok_iff.mp h
    obtain ⟨t, htarget, h⟩ := bind_eq_ok_iff.mp h
    obtain ⟨o, hsource, h⟩ := bind_eq_ok_iff.mp h
    obtain ⟨e, hlabel, h⟩ := bind_eq_ok_iff.mp h
    obtain rfl := pure_eq_ok_iff.mp h
    simpa [Item.checks] using ⟨hs.holds_process howner, hs.holds_location htarget,
      hs.holds_location hsource, hs.holds_event hlabel⟩
  | sync constraints => exact absurd rfl hkind

end Found

-- ============================================================================
-- Synchronizations
-- ============================================================================

/-- The process and the event of a constraint are there. -/
def Resolves (s : Store) (c : SyncConstraint) : Prop :=
  (∃ d, s.get? c.process.id = some d) ∧ ∃ d, s.get? c.event.id = some d

variable {s : Store}

theorem Reachable.fault?_sync_eq_none_iff (hs : s.Reachable) {constraints : List SyncConstraint} :
    s.fault? (.sync constraints) = none ↔ ∀ c ∈ constraints, s.Resolves c := by
  rw [hs.keeps.fault?_eq_none_iff]
  constructor
  · intro hall c hc
    have hchecks : ∀ check ∈ [Check.process c.process, .event c.event], check.Holds s :=
      fun check hcheck => hall check (List.mem_flatMap.mpr ⟨c, hc, hcheck⟩)
    exact ⟨hchecks (.process c.process) (by simp), hchecks (.event c.event) (by simp)⟩
  · intro hall check hcheck
    obtain ⟨c, hc, hcheck⟩ := List.mem_flatMap.mp hcheck
    rcases List.mem_pair.mp hcheck with rfl | rfl
    · exact (hall c hc).1
    · exact (hall c hc).2

/-- **Growth.** A constraint that resolves does so in every store that goes on. -/
theorem Resolves.mono {t : Store} (h : s.GoesOn t) {c : SyncConstraint} (hc : s.Resolves c) :
    t.Resolves c := by
  obtain ⟨⟨p, hp⟩, e, he⟩ := hc
  exact ⟨⟨p, h.get? _ _ hp⟩, e, h.get? _ _ he⟩

/-- A constraint that names lead to resolves. -/
theorem Reachable.resolves_of_constraint (hs : s.Reachable) {l : Link} {c : SyncConstraint}
    (h : l.constraint s = .ok c) : s.Resolves c := by
  obtain ⟨hp, he, -, -⟩ := Link.constraint_eq_ok_iff.mp h
  exact ⟨hs.holds_process (findProcess_eq_ok_iff.mpr hp),
    hs.holds_event (findEvent_eq_ok_iff.mpr he)⟩

/-- Whatever links stand for resolves. -/
theorem Reachable.resolves_of_links (hs : s.Reachable) (links : List Link) :
    ∀ c ∈ links.filterMap (fun l => (l.constraint s).toOption), s.Resolves c := by
  intro c hc
  obtain ⟨l, -, hl⟩ := List.mem_filterMap.mp hc
  exact hs.resolves_of_constraint (toOption_eq_some_iff.mp hl)

-- ============================================================================
-- Drafts
-- ============================================================================

/-- What is said about a draft: the error that keeps it out, or the warning that it comes with. -/
def saidAbout (check : BoundsCheck) (s : Store) (d : Draft) : List Diagnostic :=
  match s.accept check d with
  | .error e => [e]
  | .ok a => a.warning.toList

/-- What a submission adds to the report is what is said about the draft. -/
theorem report_submit (check : BoundsCheck) (s : Store) (r : Report) (d : Draft) :
    (s.submit check r d).report = r.append (s.saidAbout check d) := by
  unfold submit saidAbout
  cases s.accept check d <;> rfl

/-- None of the checks of a draft refuses for the store. -/
theorem code_ne_of_resolve (s : Store) (i : DraftItem) :
    FailsWith (fun d => d.code ≠ .refused) (s.resolve i) :=
  (s.checks_tell i.checked).resolve.imp fun _ ⟨_, hp, _, _, hd⟩ => hd ▸ hp.code.2

/-- **Drafts.** The store is said to refuse a draft exactly if the draft passes its checks and the
store finds a fault with what it is resolved to. -/
theorem exists_refused_iff {check : BoundsCheck} {d : Draft} :
    (∃ e ∈ s.saidAbout check d, e.code = .refused) ↔
      ∃ i w, s.resolve d.item = .ok i ∧ d.item.checkBounds check = .ok w ∧ s.fault? i ≠ none := by
  constructor
  · rintro ⟨e, he, hcode⟩
    unfold saidAbout at he
    rcases s.accept_cases check d with ⟨e', hresolve, haccept⟩ | ⟨e', hbounds, haccept⟩ |
      ⟨i, w, fault, hresolve, hbounds, hfault, -⟩ | ⟨i, w, -, hbounds, -, haccept⟩
    · rw [haccept] at he
      obtain rfl := List.mem_singleton.mp he
      exact absurd hcode (s.code_ne_of_resolve d.item e hresolve)
    · rw [haccept] at he
      obtain rfl := List.mem_singleton.mp he
      exact absurd (DraftItem.code_of_checkBounds (Or.inl hbounds)) (by simp [hcode])
    · exact ⟨i, w, hresolve, hbounds, by simp [hfault]⟩
    · rw [haccept] at he
      have hwarning : w = some e := Option.mem_toList.mp he
      rw [hwarning] at hbounds
      exact absurd (DraftItem.code_of_checkBounds (Or.inr hbounds)) (by simp [hcode])
  · rintro ⟨i, w, hresolve, hbounds, hfault⟩
    obtain ⟨fault, hfault⟩ := Option.ne_none_iff_exists'.mp hfault
    refine ⟨(Problem.refused d.kind fault).diagnostic d.span, ?_, rfl⟩
    rw [saidAbout, accept_of_resolve hresolve hbounds, hfault]
    exact List.mem_singleton_self _

/-- A draft that is no synchronization is never refused. -/
theorem Reachable.not_refused (hs : s.Reachable) (check : BoundsCheck) {d : Draft}
    (hkind : d.kind ≠ .sync) : ∀ e ∈ s.saidAbout check d, e.code ≠ .refused := by
  intro e he hcode
  obtain ⟨i, w, hresolve, -, hfault⟩ := exists_refused_iff.mp ⟨e, he, hcode⟩
  exact hfault (hs.fault?_of_resolve hkind hresolve)

/-- A synchronization is refused exactly if one of its constraints does not resolve. -/
theorem Reachable.exists_refused_sync_iff (hs : s.Reachable) (check : BoundsCheck)
    (constraints : List SyncConstraint) (attributes : Attributes) (span : Span) :
    (∃ e ∈ s.saidAbout check ⟨.sync constraints, attributes, span⟩, e.code = .refused) ↔
      ∃ c ∈ constraints, ¬ s.Resolves c := by
  have hbounds : ∃ w, (DraftItem.sync constraints).checkBounds check = .ok w := by
    cases check <;> exact ⟨none, rfl⟩
  obtain ⟨w, hw⟩ := hbounds
  have hrefused : (∃ e ∈ s.saidAbout check ⟨.sync constraints, attributes, span⟩,
      e.code = .refused) ↔ s.fault? (.sync constraints) ≠ none := by
    rw [exists_refused_iff]
    constructor
    · rintro ⟨i, -, hresolve, -, hfault⟩
      obtain rfl := pure_eq_ok_iff.mp hresolve
      exact hfault
    · exact fun hfault => ⟨_, w, rfl, hw, hfault⟩
  rw [hrefused, ne_eq, hs.fault?_sync_eq_none_iff]
  simp

/-- What a phrase stands for is never refused, not even a synchronization: its references were just
found. -/
theorem Reachable.not_refused_phrase (hs : s.Reachable) (check : BoundsCheck) (φ : Phrase)
    (attributes : Attributes) (span : Span) :
    ∀ e ∈ s.saidAbout check ⟨φ.draft s, attributes, span⟩, e.code ≠ .refused := by
  cases φ with
  | sync links =>
    intro e he hcode
    obtain ⟨c, hc, hdangling⟩ :=
      (hs.exists_refused_sync_iff check _ attributes span).mp ⟨e, he, hcode⟩
    exact hdangling (hs.resolves_of_links links c hc)
  | _ => exact hs.not_refused check (by simp [Draft.kind, Phrase.draft, DraftItem.kind])

-- ============================================================================
-- Lines
-- ============================================================================

/-- What is said about a line that was read to its end. -/
theorem enter_diagnostics_of_outcome (check : BoundsCheck) (s : Store) {close : Word}
    {ws : List Word} {φ : Phrase} {attributes : Attributes}
    (h : (Phrase.opening.read ws).outcome close = .ok (φ, attributes)) :
    (s.enter check close ws).diagnostics =
      (Phrase.opening.read ws).parts.filterMap (Part.fault? s) ++
        s.saidAbout check ⟨φ.draft s, attributes, (Phrase.opening.read ws).span close⟩ := by
  rw [saidAbout, enter]
  cases haccept :
      s.accept check ⟨φ.draft s, attributes, (Phrase.opening.read ws).span close⟩ with
  | error d => simp only [h, haccept]
  | ok acceptance => simp only [h, haccept]

theorem code_ne_of_fault {part : Part} {d : Diagnostic} (h : part.fault? s = some d) :
    d.code ≠ .refused := by
  cases part with
  | size literal =>
    obtain ⟨e, -, rfl⟩ := mapError_eq_error_iff.mp (complaint?_eq_some_iff.mp h)
    simp [Problem.diagnostic, Problem.code]
  | bound literal =>
    obtain ⟨e, -, rfl⟩ := mapError_eq_error_iff.mp (complaint?_eq_some_iff.mp h)
    simp [Problem.diagnostic, Problem.code]
  | link owner label =>
    obtain ⟨p, hp, span, related, rfl⟩ := (s.checks_tell [owner, label]).findEnds.complaint h
    exact hp.code.2

/-- **One line.** The store never refuses what it declares. -/
theorem Reachable.not_refused_enter (hs : s.Reachable) (check : BoundsCheck) (close : Word)
    (ws : List Word) : ∀ d ∈ (s.enter check close ws).diagnostics, d.code ≠ .refused := by
  have hnotes : ∀ d ∈ (Phrase.opening.read ws).parts.filterMap (Part.fault? s),
      d.code ≠ .refused := by
    intro d hd
    obtain ⟨part, -, hfault⟩ := List.mem_filterMap.mp hd
    exact code_ne_of_fault hfault
  cases houtcome : (Phrase.opening.read ws).outcome close with
  | error f =>
    simp only [Store.enter, houtcome]
    refine List.forall_mem_append.mpr ⟨hnotes, List.forall_mem_singleton.mpr ?_⟩
    exact f.code_ne
  | ok result =>
    obtain ⟨φ, attributes⟩ := result
    rw [enter_diagnostics_of_outcome check s houtcome]
    exact List.forall_mem_append.mpr ⟨hnotes, hs.not_refused_phrase check φ attributes _⟩

end Store

-- ============================================================================
-- Sessions
-- ============================================================================

namespace Session

/-- Whatever a session says, it is not that the store refuses a declaration. -/
theorem covers_not_refused : Covers (fun d => d.code ≠ .refused) Store.Reachable where
  fault f := f.code_ne
  empty := .empty
  line _ hs check close ws := hs.not_refused_enter check close ws
  store _ hs check close ws := hs.enter check close ws
  abort count span := by simp [Problem.diagnostic, Problem.code]

/-- **The store is never said to refuse a declaration.** Whatever tokens a session reads, it does
not say so. Whatever is submitted to a reachable store adds to the report what is said about it. If
it is no synchronization, the store refuses nothing that passes the checks by name; a
synchronization is refused exactly if one of its constraints refers to what is not there, and a
constraint that was looked up in a store never does so, however much the store has grown since. -/
theorem refused_iff_dangling :
    (∀ (ts : List Token) (index : LineIndex) (options : Options) (report : Report) (calls : Nat),
      let t := (fun t : Session => t.read.2)^[calls] (new ts index options report)
      ∃ added, t.report.entries = report.entries ++ added ∧ ∀ d ∈ added, d.code ≠ .refused) ∧
    ∀ s : Store, s.Reachable → ∀ (check : BoundsCheck) (r : Report) (attributes : Attributes)
        (span : Span),
      (∀ i : DraftItem, i.kind ≠ .sync →
        ∃ added, (s.submit check r ⟨i, attributes, span⟩).report = r.append added ∧
          ∀ d ∈ added, d.code ≠ .refused) ∧
      ∀ constraints : List SyncConstraint,
        ∃ added, (s.submit check r ⟨.sync constraints, attributes, span⟩).report = r.append added ∧
          ((∃ d ∈ added, d.code = .refused) ↔ ∃ c ∈ constraints, ¬ s.Resolves c) ∧
          ((∀ c ∈ constraints, ∃ (earlier : Store) (l : Link) (ds : List Declaration),
              earlier.Reachable ∧ l.constraint earlier = .ok c ∧ earlier.insertAll ds = s) →
            ∀ d ∈ added, d.code ≠ .refused) := by
  refine ⟨fun ts index options report calls => ?_, fun s hs check r attributes span =>
    ⟨fun i hkind => ?_, fun constraints => ?_⟩⟩
  · obtain ⟨added, hsays, hcodes⟩ :=
      covers_not_refused.iterate_read (new ts index options report) calls
    exact ⟨added, hsays.entries, hcodes⟩
  · exact ⟨_, Store.report_submit check s r _, hs.not_refused check hkind⟩
  · have hrefused := hs.exists_refused_sync_iff check constraints attributes span
    refine ⟨_, Store.report_submit check s r _, hrefused, fun hfound d hd hcode => ?_⟩
    obtain ⟨c, hc, hdangling⟩ := hrefused.mp ⟨d, hd, hcode⟩
    obtain ⟨earlier, l, ds, hearlier, hl, rfl⟩ := hfound c hc
    exact hdangling ((hearlier.resolves_of_constraint hl).mono (hearlier.goesOn_insertAll ds))

/-- The first process takes part with the only event. -/
def linkSample : Link := .strong ⟨"P", default⟩ ⟨"a", default⟩

/-- A link that was looked up is not refused behind another event; one to an event that does not
follow is, and the report that it is submitted with says so. -/
theorem refused_iff_dangling_pairSample :
    let grown := Store.pairSample.insertAll [⟨.event "b", {}, default⟩]
    let kept := grown.submit .ignore .empty ⟨.sync [⟨⟨0⟩, ⟨0⟩, .strong, default⟩], {}, default⟩
    let refused := grown.submit .ignore .empty ⟨.sync [⟨⟨0⟩, ⟨2⟩, .strong, default⟩], {}, default⟩
    linkSample.constraint Store.pairSample = .ok ⟨⟨0⟩, ⟨0⟩, .strong, default⟩ ∧
      (∀ d ∈ kept.report.entries, d.code ≠ .refused) ∧
      ∃ d ∈ refused.report.entries, d.code = .refused := by
  intro grown kept refused
  have hreach : Store.pairSample.Reachable := Store.Reachable.empty.insertAll _
  have hlink : linkSample.constraint Store.pairSample = .ok ⟨⟨0⟩, ⟨0⟩, .strong, default⟩ := by rfl
  have hdangling : ¬ grown.Resolves ⟨⟨0⟩, ⟨2⟩, .strong, default⟩ := by
    rintro ⟨-, d, hget⟩
    have hnone : grown.get? ⟨.event, 2⟩ = none := rfl
    exact absurd (hnone.symm.trans hget) (by simp)
  have hsync := (refused_iff_dangling.2 grown (hreach.insertAll _) .ignore .empty {} default).2
  obtain ⟨keptSays, hkept, -, hclean⟩ := hsync [⟨⟨0⟩, ⟨0⟩, .strong, default⟩]
  obtain ⟨refusedSays, hrefused, hiff, -⟩ := hsync [⟨⟨0⟩, ⟨2⟩, .strong, default⟩]
  -- the reports have nothing in them before
  have hkeptEntries : kept.report.entries = keptSays :=
    (congrArg Report.entries hkept).trans (Report.entries_append .empty keptSays)
  have hrefusedEntries : refused.report.entries = refusedSays :=
    (congrArg Report.entries hrefused).trans (Report.entries_append .empty refusedSays)
  rw [hkeptEntries, hrefusedEntries]
  refine ⟨hlink, hclean ?_, hiff.mpr ⟨_, List.mem_singleton_self _, hdangling⟩⟩
  exact List.forall_mem_singleton.mpr ⟨Store.pairSample, linkSample, _, hreach, hlink, rfl⟩

end Session

end TimedNet
