/-
  TimedNet.Proofs.Session.Alike

  Stores that differ at most in their synchronizations. No name leads to a synchronization and
  nothing refers to one, so stores that are alike answer every check alike, and the same is said
  about lines that are entered into them (`Alike.enterLines`). A line with an error other than a
  numeral out of range leaves a store that is like the one before (`alike_of_error`).
-/
import TimedNet.Proofs.Session.ByLine
import TimedNet.Proofs.Session.Stores

namespace TimedNet

namespace Store

/-- Stores are alike if they have the same names, and the same declarations of all kinds but
synchronizations. -/
structure Alike (s t : Store) : Prop where
  names : s.names = t.names
  ofKind : ∀ k, k ≠ .sync → s.ofKind k = t.ofKind k

/-- A synchronization declares no name. -/
theorem kind_ne_sync_of_key {d : Declaration} {scope : Scope} {name : String}
    (h : d.key? = some (scope, name)) : d.kind ≠ .sync := by
  have hkind := kind_mem_kinds_of_key h
  intro hsync
  rw [hsync] at hkind
  cases scope <;> simp [Scope.kinds] at hkind

theorem Reachable.kind_of_holder {s : Store} (hs : s.Reachable) {scope : Scope} {name : String}
    {id : DeclarationId} (h : s.holder? scope name = some id) : id.kind ≠ .sync := by
  obtain ⟨d, hmem, hkey⟩ := hs.keeps.holder?_eq_some_iff.mp h
  rw [← kind_of_mem_entries hmem]
  exact kind_ne_sync_of_key hkey

namespace Alike

variable {s t : Store}

theorem refl (s : Store) : s.Alike s := ⟨rfl, fun _ _ => rfl⟩

-- ============================================================================
-- Answers
-- ============================================================================

theorem holder? (h : s.Alike t) (scope : Scope) (name : String) :
    s.holder? scope name = t.holder? scope name := by
  rw [Store.holder?, Store.holder?, h.names]

theorem ref? (h : s.Alike t) (k : Kind) (scope : Scope) (name : String) :
    s.ref? k scope name = t.ref? k scope name := by
  rw [Store.ref?, Store.ref?, h.holder?]

theorem get? (h : s.Alike t) {id : DeclarationId} (hid : id.kind ≠ .sync) :
    s.get? id = t.get? id := by
  rw [Store.get?, Store.get?, h.ofKind id.kind hid]

theorem nextId (h : s.Alike t) {k : Kind} (hk : k ≠ .sync) : s.nextId k = t.nextId k := by
  rw [Store.nextId, Store.nextId, h.ofKind k hk]

theorem findProcess (h : s.Alike t) (l : Lexeme) : s.findProcess l = t.findProcess l := by
  rw [Store.findProcess, Store.findProcess, process?, process?, h.ref?]

theorem findEvent (h : s.Alike t) (l : Lexeme) : s.findEvent l = t.findEvent l := by
  rw [Store.findEvent, Store.findEvent, event?, event?, h.ref?]

theorem findLocation (h : s.Alike t) (p : ProcessRef) (owner l : Lexeme) :
    s.findLocation p owner l = t.findLocation p owner l := by
  rw [Store.findLocation, Store.findLocation, location?, location?, h.ref?]

theorem findEnds (h : s.Alike t) (owner label : Lexeme) :
    s.findEnds owner label = t.findEnds owner label := by
  simp only [Store.findEnds, h.findProcess, h.findEvent]

/-- In stores that are alike a name is free in both, or held by the same declaration. -/
theorem checkFree (h : s.Alike t) (hs : s.Reachable) (scope : Scope) (name : Lexeme)
    (problem : Kind → Problem) :
    s.checkFree scope name problem = t.checkFree scope name problem := by
  have hholder := h.holder? scope name.text
  rw [Store.checkFree, Store.checkFree, ← hholder]
  cases hid : s.holder? scope name.text with
  | none => rfl
  | some id =>
    have hget := h.get? (hs.kind_of_holder hid)
    simp only [previous, hget]

theorem fault?_part (h : s.Alike t) (part : Part) : part.fault? s = part.fault? t := by
  cases part with
  | link owner label => rw [Part.fault?, Part.fault?, h.findEnds]
  | _ => rfl

theorem draft (h : s.Alike t) (φ : Phrase) : φ.draft s = φ.draft t := by
  cases φ with
  | sync links => simp only [Phrase.draft, Link.constraint, h.findEnds]
  | _ => rfl

theorem resolve (h : s.Alike t) (hs : s.Reachable) (i : DraftItem) : s.resolve i = t.resolve i := by
  cases i <;>
    simp only [Store.resolve, h.checkFree hs, h.findProcess, h.findLocation, h.findEvent]

theorem fault? (h : s.Alike t) (i : Item) : s.fault? i = t.fault? i := by
  have hprocess : ∀ p, s.processFault? p = t.processFault? p := fun p => by
    rw [processFault?, processFault?, h.get? (by simp [Ref.id])]
  have hevent : ∀ e, s.eventFault? e = t.eventFault? e := fun e => by
    rw [eventFault?, eventFault?, h.get? (by simp [Ref.id])]
  have hlocation : ∀ p l, s.locationFault? p l = t.locationFault? p l := fun p l => by
    rw [locationFault?, locationFault?, h.get? (by simp [Ref.id])]
  have hname : s.nameFault? i = t.nameFault? i := by
    simp only [nameFault?, h.holder?]
  have hreference : s.referenceFault? i = t.referenceFault? i := by
    cases i <;> simp only [referenceFault?, hprocess, hevent, hlocation]
  rw [Store.fault?, Store.fault?, hreference, hname]

-- ============================================================================
-- Steps
-- ============================================================================

theorem push (h : s.Alike t) (d : Declaration) : (s.push d).Alike (t.push d) := by
  constructor
  · show register s.names d (s.nextId d.kind) = register t.names d (t.nextId d.kind)
    rw [h.names]
    cases hkey : d.key? with
    | none => simp only [register, hkey]
    | some key => rw [h.nextId (kind_ne_sync_of_key hkey)]
  · intro k hk
    rw [ofKind_push, ofKind_push, h.ofKind k hk]

/-- A synchronization makes no difference. -/
theorem push_sync (s : Store) {d : Declaration} (hd : d.kind = .sync) : s.Alike (s.push d) := by
  constructor
  · show s.names = register s.names d (s.nextId d.kind)
    cases hkey : d.key? with
    | none => simp only [register, hkey]
    | some key => exact absurd hd (kind_ne_sync_of_key hkey)
  · intro k hk
    rw [ofKind_push, if_neg (fun hdk => hk (hdk.symm.trans hd))]

/-- A draft fares alike in stores that are alike. -/
theorem accept (h : s.Alike t) (hs : s.Reachable) (check : BoundsCheck) (d : Draft) :
    (∃ e, s.accept check d = .error e ∧ t.accept check d = .error e) ∨
      ∃ a b, s.accept check d = .ok a ∧ t.accept check d = .ok b ∧ a.warning = b.warning ∧
        a.store.Alike b.store := by
  have hresolve := h.resolve hs d.item
  cases hitem : s.resolve d.item with
  | error e =>
    left
    refine ⟨e, bind_eq_error_iff.mpr (Or.inl hitem), bind_eq_error_iff.mpr (Or.inl ?_)⟩
    rw [← hresolve, hitem]
  | ok item =>
    rw [hitem] at hresolve
    cases hbounds : d.item.checkBounds check with
    | error e =>
      left
      refine ⟨e, ?_, ?_⟩
      · exact bind_eq_error_iff.mpr (Or.inr ⟨item, hitem, bind_eq_error_iff.mpr (Or.inl hbounds)⟩)
      · exact bind_eq_error_iff.mpr
          (Or.inr ⟨item, hresolve.symm, bind_eq_error_iff.mpr (Or.inl hbounds)⟩)
    | ok warning =>
      have hfault := h.fault? item
      rw [accept_of_resolve hitem hbounds, accept_of_resolve hresolve.symm hbounds, ← hfault]
      cases s.fault? item with
      | some e => exact Or.inl ⟨_, rfl, rfl⟩
      | none => exact Or.inr ⟨_, _, rfl, rfl, rfl, h.push _⟩

/-- **One line.** The same is said about it, and the stores stay alike. -/
theorem enter (h : s.Alike t) (hs : s.Reachable) (check : BoundsCheck) (stop : Word)
    (line : List Word) :
    (s.enter check stop line).diagnostics = (t.enter check stop line).diagnostics ∧
      (s.enter check stop line).store.Alike (t.enter check stop line).store := by
  have hparts : Part.fault? s = Part.fault? t := funext h.fault?_part
  cases houtcome : (Phrase.opening.read line).outcome stop with
  | error f =>
    simp only [Store.enter, houtcome, hparts]
    exact ⟨trivial, h⟩
  | ok result =>
    obtain ⟨φ, as⟩ := result
    rcases h.accept hs check ⟨φ.draft s, as, (Phrase.opening.read line).span stop⟩ with
      ⟨e, hse, hte⟩ | ⟨a, b, hsa, htb, hwarning, hstore⟩
    · rw [h.draft] at hse hte
      simp only [Store.enter, houtcome, hparts, h.draft, hse, hte]
      exact ⟨trivial, h⟩
    · rw [h.draft] at hsa htb
      simp only [Store.enter, houtcome, hparts, h.draft, hsa, htb, hwarning]
      exact ⟨trivial, hstore⟩

end Alike

theorem Reachable.enterLines {s : Store} (hs : s.Reachable) (check : BoundsCheck)
    (ls : List Line) : (s.enterLines check ls).2.Reachable := by
  induction ls generalizing s with
  | nil => exact hs
  | cons l ls ih => exact ih (hs.enter check l.stop l.words)

/-- **A run of lines.** The same is said about lines that are entered into stores that are alike. -/
theorem Alike.enterLines {s t : Store} (h : s.Alike t) (hs : s.Reachable) (check : BoundsCheck)
    (ls : List Line) : (s.enterLines check ls).1 = (t.enterLines check ls).1 := by
  induction ls generalizing s t with
  | nil => rfl
  | cons l ls ih =>
    obtain ⟨hdiagnostics, hstore⟩ := h.enter hs check l.stop l.words
    have hmore := ih hstore (hs.enter check l.stop l.words)
    rw [Store.enterLines, Store.enterLines, hdiagnostics, hmore]

-- ============================================================================
-- Rejected lines
-- ============================================================================

/-- What is wrong with a part is that a numeral is out of range, which has a code of its own, or that
a name of a link is not declared. -/
theorem code_of_fault {s : Store} {part : Part} {d : Diagnostic} (h : part.fault? s = some d) :
    d.code = .unsignedRange ∨ d.code = .signedRange ∨
      ∃ owner label, part = .link owner label := by
  cases part with
  | size literal =>
    obtain ⟨e, -, rfl⟩ := mapError_eq_error_iff.mp (complaint?_eq_some_iff.mp h)
    exact Or.inl rfl
  | bound literal =>
    obtain ⟨e, -, rfl⟩ := mapError_eq_error_iff.mp (complaint?_eq_some_iff.mp h)
    exact Or.inr (Or.inl rfl)
  | link owner label => exact Or.inr (Or.inr ⟨owner, label, rfl⟩)

/-- Only the links of a synchronization are parts of this kind. -/
theorem exists_links_of_mem_parts {φ : Phrase} {owner label : Lexeme}
    (h : Part.link owner label ∈ φ.parts) : ∃ links, φ = .sync links := by
  cases φ with
  | sync links => exact ⟨links, rfl⟩
  | _ => exact absurd h (by simp [Phrase.parts])

/-- **A rejected line.** If there is an error on a line, and not for a numeral that is out of
range, nothing that can be referred to is declared: either the store stays as it is, or names are
not found in a synchronization, and what is left of it is taken. -/
theorem alike_of_error {s : Store} {check : BoundsCheck} {stop : Word} {line : List Word}
    (hline : Lexical true (line.map Word.shape)) {d : Diagnostic}
    (hd : d ∈ (s.enter check stop line).diagnostics) (herror : d.isError = true)
    (hsigned : d.code ≠ .signedRange) (hunsigned : d.code ≠ .unsignedRange) :
    s.Alike (s.enter check stop line).store := by
  rcases s.enter_cases check stop line with ⟨f, -, -, hstore⟩ | ⟨φ, as, e, -, -, -, hstore⟩ |
    ⟨φ, as, a, houtcome, haccept, hsaid, hstore⟩
  · rw [hstore]
    exact .refl s
  · rw [hstore]
    exact .refl s
  · rw [hsaid] at hd
    rcases List.mem_append.mp hd with hd | hd
    · obtain ⟨part, hpart, hfault⟩ := List.mem_filterMap.mp hd
      obtain ⟨⟨-, hparts⟩, -⟩ := Place.sound_of_outcome Phrase.sound_opening hline houtcome
      rw [hparts] at hpart
      rcases code_of_fault hfault with hcode | hcode | ⟨owner, label, rfl⟩
      · exact absurd hcode hunsigned
      · exact absurd hcode hsigned
      · obtain ⟨links, rfl⟩ := exists_links_of_mem_parts hpart
        obtain ⟨i, hi, -, hpush⟩ := store_of_accept haccept
        obtain rfl := pure_eq_ok_iff.mp hi
        rw [hstore, hpush]
        exact .push_sync s rfl
    · -- a declaration that is taken is warned about at most
      have hwarning := isWarning_of_accept haccept (Option.mem_toList.mp hd)
      exact absurd herror (by simp [hwarning.1])

end Store

end TimedNet
