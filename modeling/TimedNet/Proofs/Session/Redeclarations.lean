/-
  TimedNet.Proofs.Session.Redeclarations

  Names that are taken. Of all that can be said about a line, only that its name is taken points
  anywhere, and it points at the one declaration of the store that holds the name
  (`Reachable.saysTaken_enter`). A declaration of the store was added by one of the lines above
  (`exists_line_of_mem`), and as no line adds a second one of the name, it was the first to declare
  it, whatever lines between the two declared the name in vain.
-/
import TimedNet.Proofs.Session.FirstLines
import TimedNet.Proofs.Session.LineReport
import TimedNet.Proofs.Session.SourceOrder

namespace TimedNet

/-- The codes that tell of a name that is taken. -/
def Code.saysTaken (c : Code) : Bool := [Code.redeclared, .variableClash].contains c

/-- A diagnostic that tells of no name that is taken, and points nowhere. -/
structure Diagnostic.IsPlain (d : Diagnostic) : Prop where
  code : d.code.saysTaken = false
  related : d.related = []

theorem Fault.isPlain_diagnostic (f : Fault) : f.diagnostic.IsPlain := by
  refine ⟨?_, rfl⟩
  have hsyntactic : f.diagnostic.code.isSyntactic = true := f.isSyntactic_diagnostic
  cases hcode : f.diagnostic.code <;> simp_all [Code.isSyntactic, Code.saysTaken]

/-- The name that a phrase is to declare and its namespace. The process of a location is one that
the store has under the name that is given. -/
inductive Phrase.Names (s : Store) : Phrase → Scope → Lexeme → Prop
  | clock (size name : Lexeme) : Names s (.clock size name) .variables name
  | int (size min max initial name : Lexeme) :
    Names s (.int size min max initial name) .variables name
  | event (name : Lexeme) : Names s (.event name) .events name
  | process (name : Lexeme) : Names s (.process name) .processes name
  | location {owner : Lexeme} {p : ProcessRef} (howner : s.IsProcess p owner.text)
    (name : Lexeme) : Names s (.location owner name) (.locations p) name

namespace Store

/-- A diagnostic tells, at the name that a phrase is to declare, that a declaration of the store
holds it. -/
structure SaysTaken (s : Store) (φ : Phrase) (scope : Scope) (name : Lexeme) (e : Declaration)
    (d : Diagnostic) : Prop where
  names : φ.Names s scope name
  mem : e ∈ s.declarations
  key : e.key? = some (scope, name.text)
  code : d.code.saysTaken = true
  span : d.span = name.span
  related : d.related = [⟨"previous declaration", e.span⟩]

-- ============================================================================
-- One line
-- ============================================================================

variable {s : Store} {d : Diagnostic} {φ : Phrase}

/-- The only name that a draft asks to be free is the one that its phrase is to declare. -/
theorem names_of_free {as : Attributes} {span : Span} {scope : Scope} {kind : Kind} {name : Lexeme}
    (hc : .free scope kind name ∈ Draft.conditions ⟨φ.draft s, as, span⟩) :
    φ.Names s scope name := by
  cases φ with
  | clock size name' =>
    obtain ⟨rfl, -, rfl⟩ := by simpa [Phrase.draft, Draft.conditions] using hc
    exact .clock size name
  | int size min max initial name' =>
    obtain ⟨rfl, -, rfl⟩ := by simpa [Phrase.draft, Draft.conditions] using hc
    exact .int size min max initial name
  | event name' =>
    obtain ⟨rfl, -, rfl⟩ := by simpa [Phrase.draft, Draft.conditions] using hc
    exact .event name
  | process name' =>
    obtain ⟨rfl, -, rfl⟩ := by simpa [Phrase.draft, Draft.conditions] using hc
    exact .process name
  | _ => simp [Phrase.draft, Draft.conditions] at hc

/-- Only a location has a name that must be free among the locations of a process. -/
theorem eq_location_of_freeIn {as : Attributes} {span : Span} {owner name : Lexeme}
    (hc : .freeIn owner name ∈ Draft.conditions ⟨φ.draft s, as, span⟩) :
    φ = .location owner name := by
  cases φ with
  | location owner' name' =>
    obtain ⟨rfl, rfl⟩ := by simpa [Phrase.draft, Draft.conditions] using hc
    rfl
  | _ => simp [Phrase.draft, Draft.conditions] at hc

/-- **One condition.** That it fails is either no matter of names that are taken, or the name of the
phrase is. -/
theorem isPlain_or_saysTaken_of_tells {as : Attributes} {span : Span} {c : Condition}
    (hc : c ∈ Draft.conditions ⟨φ.draft s, as, span⟩) (h : c.Tells s d) :
    d.IsPlain ∨ ∃ scope name e, s.SaysTaken φ scope name e d := by
  cases c with
  | free scope kind name =>
    -- of two variables of one name it matters whether they are of one kind
    obtain ⟨e, he, hkey, rfl⟩ := h
    have hcode : Code.saysTaken (if e.kind = kind then .redeclared else .variableClash) = true := by
      split <;> rfl
    exact Or.inr ⟨scope, name, e, names_of_free hc, he, hkey, hcode, rfl, rfl⟩
  | freeIn owner name =>
    obtain ⟨p, hp, e, he, hkey, rfl⟩ := h
    obtain rfl := eq_location_of_freeIn hc
    exact Or.inr ⟨.locations p, name, e, .location hp name, he, hkey, rfl, rfl, rfl⟩
  | bounded min max initial name =>
    obtain ⟨lo, hi, v, -, -, -, rfl⟩ := h
    exact Or.inl ⟨rfl, rfl⟩
  | present check span =>
    obtain ⟨reason, -, rfl⟩ := h
    exact Or.inl ⟨rfl, rfl⟩
  | _ =>
    rw [Condition.Tells] at h
    subst h
    exact Or.inl ⟨rfl, rfl⟩

theorem isPlain_of_note {part : Part} (h : part.note? s = some d) : d.IsPlain := by
  cases part with
  | size l =>
    simp only [Part.note?] at h
    split at h
    · exact absurd h (by simp)
    · exact Option.some.inj h ▸ ⟨rfl, rfl⟩
  | bound l =>
    simp only [Part.note?] at h
    split at h
    · exact absurd h (by simp)
    · exact Option.some.inj h ▸ ⟨rfl, rfl⟩
  | link owner label =>
    simp only [Part.note?] at h
    split at h
    · exact Option.some.inj h ▸ ⟨rfl, rfl⟩
    · split at h
      · exact Option.some.inj h ▸ ⟨rfl, rfl⟩
      · exact absurd h (by simp)

/-- **One line.** Only that its name is taken points anywhere. -/
theorem Reachable.saysTaken_enter (hs : s.Reachable) (check : BoundsCheck) (close : Word)
    (ws : List Word) :
    ∀ d ∈ (s.enter check close ws).diagnostics, d.IsPlain ∨
      ∃ φ as scope name e, (Phrase.opening.read ws).outcome close = .ok (φ, as) ∧
        s.SaysTaken φ scope name e d := by
  intro d hd
  rcases hs.tells_of_enter hd with ⟨part, -, hnote⟩ | ⟨f, -, rfl⟩ |
    ⟨φ, as, houtcome, ⟨c, hc, htells⟩ | hbounds⟩
  · exact Or.inl (isPlain_of_note hnote)
  · exact Or.inl f.isPlain_diagnostic
  · refine (isPlain_or_saysTaken_of_tells hc htells).imp_right ?_
    rintro ⟨scope, name, e, h⟩
    exact ⟨φ, as, scope, name, e, houtcome, h⟩
  · obtain ⟨-, hcode⟩ := DraftItem.warns_of_checkBounds hbounds
    exact Or.inl ⟨by rw [hcode]; rfl, DraftItem.related_of_checkBounds (Or.inr hbounds)⟩

-- ============================================================================
-- Lines
-- ============================================================================

/-- What is said about lines is said about one of them, in the store behind those above it. -/
theorem exists_line_of_said {check : BoundsCheck} {ls : List Line}
    (hd : d ∈ (s.enterLines check ls).1) :
    ∃ above l below, ls = above ++ l :: below ∧
      d ∈ ((s.enterLines check above).2.enter check l.stop l.words).diagnostics := by
  induction ls generalizing s with
  | nil => exact absurd hd List.not_mem_nil
  | cons l ls ih =>
    rcases List.mem_append.mp hd with hd | hd
    · exact ⟨[], l, ls, rfl, hd⟩
    · obtain ⟨above, k, below, rfl, hk⟩ := ih hd
      exact ⟨l :: above, k, below, rfl, hk⟩

/-- A line adds a declaration to a store, which makes up the line. -/
structure Adds (check : BoundsCheck) (s : Store) (l : Line) (e : Declaration) : Prop where
  declarations : (s.enter check l.stop l.words).store.declarations = s.declarations ++ [e]
  reads : ∃ φ as, (Phrase.opening.read l.words).outcome l.stop = .ok (φ, as)
  span : e.span = (Phrase.opening.read l.words).span l.stop

/-- **Where a declaration comes from.** It was there before the lines, or one of them added it. -/
theorem exists_line_of_mem (hs : s.Reachable) {check : BoundsCheck} {ls : List Line}
    {e : Declaration} (he : e ∈ (s.enterLines check ls).2.declarations) :
    e ∈ s.declarations ∨
      ∃ above k between, ls = above ++ k :: between ∧
        (s.enterLines check above).2.Adds check k e := by
  induction ls generalizing s with
  | nil => exact Or.inl he
  | cons l ls ih =>
    rcases ih (hs.enter check l.stop l.words) he with he | ⟨above, k, between, rfl, hadds⟩
    · rcases s.store_of_enter check l.stop l.words with
        hsame | ⟨φ, as, i, houtcome, -, hfault, hpush⟩
      · exact Or.inl (hsame ▸ he)
      · let e' : Declaration := ⟨i, as, (Phrase.opening.read l.words).span l.stop⟩
        have hdeclarations : (s.enter check l.stop l.words).store.declarations =
            s.declarations ++ [e'] := by
          rw [hpush]
          exact (appends_push (d := e') hs.keeps hfault).declarations
        rw [hdeclarations] at he
        refine (List.mem_append.mp he).imp_right fun he => ?_
        obtain rfl := List.mem_singleton.mp he
        exact ⟨[], l, ls, rfl, hdeclarations, ⟨φ, as, houtcome⟩, rfl⟩
    · exact Or.inr ⟨l :: above, k, between, rfl, hadds⟩

/-- Nothing that was declared before has the name of a declaration that a line adds. -/
theorem Adds.key_ne (hs : s.Reachable) {check : BoundsCheck} {l : Line} {e : Declaration}
    (h : s.Adds check l e) {key : Scope × String} (hkey : e.key? = some key) :
    ∀ e' ∈ s.declarations, e'.key? ≠ some key := by
  intro e' he' hkey'
  have hnodup := (hs.enter check l.stop l.words).keeps.nodup
  rw [h.declarations, List.filterMap_append, List.nodup_append] at hnodup
  have hmem : key ∈ s.declarations.filterMap Declaration.key? :=
    List.mem_filterMap.mpr ⟨e', he', hkey'⟩
  exact hnodup.2.2 key hmem key (by simp [hkey]) rfl

end Store

-- ============================================================================
-- Texts
-- ============================================================================

/-- A diagnostic tells that the line `l` is to declare a name in vain, since the line `k` has done
so first: a declaration of the line `k` holds the name, none did above that line, and no other one
does above the line `l`. -/
structure Line.Redeclares (check : BoundsCheck) (l : Line) (above : List Line) (k : Line)
    (between : List Line) (φ : Phrase) (scope : Scope) (name : Lexeme) (e : Declaration)
    (d : Diagnostic) : Prop where
  reads : ∃ as, (Phrase.opening.read l.words).outcome l.stop = .ok (φ, as)
  taken : (Store.empty.enterLines check (above ++ k :: between)).2.SaysTaken φ scope name e d
  adds : (Store.empty.enterLines check above).2.Adds check k e
  first : ∀ e' ∈ (Store.empty.enterLines check above).2.declarations,
    e'.key? ≠ some (scope, name.text)
  only : ∀ e' ∈ (Store.empty.enterLines check (above ++ k :: between)).2.declarations,
    e'.key? = some (scope, name.text) → e' = e
  isBelow : k.row < l.row
  place : d.span.start.line = l.row ∧ e.span.start.line = k.row ∧ e.span.stop.line = k.row

/-- A line of a text that declares a name that is taken. -/
theorem redeclares_of_saysTaken {check : BoundsCheck} {above below : List Line} {l : Line}
    (hrows : OnRows (above ++ l :: below)) (hone : ∀ k ∈ above, k.IsOneRow) {d : Diagnostic}
    (hd : d ∈ ((Store.empty.enterLines check above).2.enter check l.stop l.words).diagnostics)
    {φ : Phrase} {as : Attributes} {scope : Scope} {name : Lexeme} {e : Declaration}
    (houtcome : (Phrase.opening.read l.words).outcome l.stop = .ok (φ, as))
    (htold : (Store.empty.enterLines check above).2.SaysTaken φ scope name e d) :
    ∃ upper k between, above = upper ++ k :: between ∧
      l.Redeclares check upper k between φ scope name e d := by
  have hreach := Store.Reachable.empty.enterLines check
  rcases Store.exists_line_of_mem .empty htold.mem with hnone | ⟨upper, k, between, rfl, hadds⟩
  · exact absurd hnone (by simp [Store.declarations, Store.empty])
  obtain ⟨w, hw, hstart⟩ := Store.start_of_enter hd
  obtain ⟨φ', as', hk⟩ := hadds.reads
  have hplace := (hone k (by simp)).span (p := Phrase.opening) rfl hk
  rw [← hadds.span] at hplace
  have hpairwise := hrows.pairwise
  rw [List.append_assoc] at hpairwise
  have hbelow := (List.pairwise_cons.mp (List.pairwise_append.mp hpairwise).2.1).1 l (by simp)
  refine ⟨upper, k, between, rfl, ⟨as, houtcome⟩, htold, hadds,
    hadds.key_ne (hreach upper) htold.key,
    fun e' he' hkey => (hreach _).keeps.eq_of_key he' htold.mem hkey htold.key, hbelow, ?_, hplace⟩
  rw [hstart]
  exact hrows.standsOn l (by simp) w hw

/-- **Names that are taken.** With any options, whatever tells of a name that is taken points at one
other place, and no other diagnostic points anywhere. This place is the declaration that a line
above added, the first to declare the name in its namespace: that of all variables, of all events,
of all processes, or of the locations of a process. Whatever lines between the two declared the name
as well, they did so in vain. -/
theorem parse_redeclarations (source : String) (options : Options) :
    ∀ d ∈ (parse source options).diagnostics,
      (d.code = .redeclared ∨ d.code = .variableClash →
        ∃ first above k between l below φ scope name e,
          linesOf source.toList = first :: (above ++ k :: (between ++ l :: below)) ∧
          l.Redeclares options.boundsCheck above k between φ scope name e d ∧
          d.related = [⟨"previous declaration", e.span⟩]) ∧
      (¬(d.code = .redeclared ∨ d.code = .variableClash) → d.related = []) := by
  intro d hd
  have hplain : d.IsPlain →
      ¬(d.code = .redeclared ∨ d.code = .variableClash) ∧ d.related = [] := by
    rintro ⟨hcode, hrelated⟩
    refine ⟨?_, hrelated⟩
    rintro (h | h) <;> rw [h] at hcode <;> exact absurd hcode (by decide)
  suffices h : d.IsPlain ∨ ∃ first above k between l below φ scope name e,
      linesOf source.toList = first :: (above ++ k :: (between ++ l :: below)) ∧
      l.Redeclares options.boundsCheck above k between φ scope name e d by
    rcases h with h | ⟨first, above, k, between, l, below, φ, scope, name, e, hlines, hline⟩
    · exact ⟨fun hcode => absurd hcode (hplain h).1, fun _ => (hplain h).2⟩
    · refine ⟨fun _ => ⟨first, above, k, between, l, below, φ, scope, name, e, hlines, hline,
        hline.taken.related⟩, fun hcode => absurd ?_ hcode⟩
      simpa [Code.saysTaken] using hline.taken.code
  rcases diagnostics_cases source options with ⟨l, f, -, -, hsaid⟩ |
    ⟨first, upper, lower, last, hlines, hsaid, hlast⟩
  · rw [hsaid] at hd
    exact Or.inl (List.mem_singleton.mp hd ▸ f.isPlain_diagnostic)
  · rw [hsaid] at hd
    rcases List.mem_append.mp hd with hd | hd
    · obtain ⟨above, l, below, rfl, hl⟩ := Store.exists_line_of_said hd
      have hreach := Store.Reachable.empty.enterLines options.boundsCheck above
      rcases hreach.saysTaken_enter options.boundsCheck l.stop l.words d hl with
        hd | ⟨φ, as, scope, name, e, houtcome, htold⟩
      · exact Or.inl hd
      · rw [List.append_assoc, List.cons_append] at hlines
        have hrows : OnRows (first :: (above ++ l :: (below ++ lower))) :=
          hlines ▸ onRows_linesOf source.toList
        have hone : ∀ k ∈ above, k.IsOneRow := fun k hk =>
          isOneRow_linesOf source.toList k (by simp [hlines, hk])
        obtain ⟨upper, k, between, rfl, hline⟩ :=
          redeclares_of_saysTaken hrows.of_cons hone hl houtcome htold
        rw [List.append_assoc, List.cons_append] at hlines
        exact Or.inr ⟨first, upper, k, between, l, _, φ, scope, name, e, hlines, hline⟩
    · rcases hlast with rfl | hgave
      · exact absurd hd List.not_mem_nil
      · obtain ⟨count, rfl⟩ := hgave.said
        exact Or.inl (List.mem_singleton.mp hd ▸ ⟨rfl, rfl⟩)

/-- A clock whose name is declared three times more, once as that of an integer variable, and a
location that another process may have too. -/
def takenSample : String :=
  "system:s\nclock:1:x\nint:1:0:1:0:x\nclock:1:x\nevent:x\nclock:2:x\nprocess:P\nprocess:Q\n" ++
    "location:P:x\nlocation:Q:x\nlocation:P:x\nclock\n"

/-- The last of the clocks comes behind two other lines that declare its name in vain, and points at
the first. -/
theorem parse_redeclarations_takenSample :
    (parse takenSample {}).diagnostics.map
        (fun d => (d.code, d.span.start.line, d.related.map fun r => r.span.start.line)) =
      [(.variableClash, 2, [1]), (.redeclared, 3, [1]), (.redeclared, 5, [1]),
        (.redeclared, 10, [8]), (.unexpectedToken, 11, [])] ∧
    ∃ d ∈ (parse takenSample {}).diagnostics, d.span.start.line = 5 ∧
      ∃ first above k between l below φ scope name e,
        linesOf takenSample.toList = first :: (above ++ k :: (between ++ l :: below)) ∧
        l.Redeclares .ignore above k between φ scope name e d ∧
        d.related = [⟨"previous declaration", e.span⟩] := by
  refine ⟨by decide +kernel, ?_⟩
  have hthird : ∃ d ∈ (parse takenSample {}).diagnostics,
      d.span.start.line = 5 ∧ d.code = .redeclared := by decide +kernel
  obtain ⟨d, hd, hrow, hcode⟩ := hthird
  exact ⟨d, hd, hrow, (parse_redeclarations takenSample {} d hd).1 (Or.inl hcode)⟩

end TimedNet
