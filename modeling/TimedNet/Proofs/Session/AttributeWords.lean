/-
  TimedNet.Proofs.Session.AttributeWords

  Which words of a line an attribute was read off. An attribute is a key, a `:` and a value, or no
  value, and stands before a `:` or a `}` (`Attribute.Spelled`). Each word that is read within a
  list goes on with the attribute that was begun or ends it (`shows_next`); so all attributes of a
  line are spelled in it, where the scanner expects a key (`spelledIn_of_outcome`).
-/
import TimedNet.Proofs.Session.TrailingText

namespace TimedNet

-- ============================================================================
-- Words of an attribute
-- ============================================================================

/-- How an attribute is spelled, and the word behind it. -/
inductive Attribute.Spelled : Attribute → List Word → Word → Prop
  | valued {key colon value next : Word} (hkey : key.kind = .ident) (hcolon : colon.kind = .colon)
    (hvalue : value.kind = .text) (hnext : next.kind = .colon ∨ next.kind = .rBrace) :
    Spelled (Place.valued key value) [key, colon, value] next
  | bare {key colon next : Word} (hkey : key.kind = .ident) (hcolon : colon.kind = .colon)
    (hnext : next.kind = .colon ∨ next.kind = .rBrace) :
    Spelled (Place.bare key next) [key, colon] next

/-- An attribute is spelled among words, where they lead the scanner to a key. -/
def Attribute.SpelledIn (a : Attribute) (ws : List Word) : Prop :=
  ∃ front run next back, ws = front ++ (run ++ next :: back) ∧ a.Spelled run next ∧
    Token.Mode.through .outside (kinds front) = .key

theorem Attribute.SpelledIn.append {a : Attribute} {ws : List Word} (h : a.SpelledIn ws)
    (more : List Word) : a.SpelledIn (ws ++ more) := by
  obtain ⟨front, run, next, back, rfl, hspelled, hkey⟩ := h
  exact ⟨front, run, next, back ++ more, by simp, hspelled, hkey⟩

-- ============================================================================
-- What a place shows
-- ============================================================================

/-- The attribute that was begun: its words are the last ones. -/
def ListStep.Begun (done : List Word) : ListStep → Prop
  | .colon k => ∃ front, done = front ++ [k] ∧ k.kind = .ident ∧
    Token.Mode.through .outside (kinds front) = .key
  | .value k => ∃ front colon, done = front ++ [k, colon] ∧ k.kind = .ident ∧
    colon.kind = .colon ∧ Token.Mode.through .outside (kinds front) = .key
  | .separator k v => ∃ front colon, done = front ++ [k, colon, v] ∧ k.kind = .ident ∧
    colon.kind = .colon ∧ v.kind = .text ∧ Token.Mode.through .outside (kinds front) = .key
  | _ => True

namespace Place

variable {α : Type}

/-- The attributes that have been read. -/
def entries : Place α → List Attribute
  | .list _ _ entries _ => entries
  | _ => []

def Begun (done : List Word) : Place α → Prop
  | .list _ _ _ step => step.Begun done
  | _ => True

/-- A place goes with the words that led to it. -/
structure Shows (done : List Word) (p : Place α) : Prop where
  mode : p.stage.mode = Token.Mode.through .outside (kinds done)
  entries : ∀ e ∈ p.entries, e.SpelledIn done
  begun : p.Begun done

-- ============================================================================
-- One word
-- ============================================================================

/-- Outside of a list nothing is read of one. -/
theorem entries_of_before {p : Place α} (hp : p.stage = .before) (done : List Word) :
    p.entries = [] ∧ p.Begun done := by
  cases p with
  | list c a es step => cases step <;> exact absurd hp (by simp [stage, ListStep.stage])
  | _ => exact ⟨rfl, trivial⟩

/-- A list begins at its `{`, without attributes. -/
theorem entries_of_opened {p q : Place α} (hp : p.stage = .before) {w : Word}
    (hw : w.kind = .lBrace) (h : p.next w = some q) (done : List Word) :
    q.entries = [] ∧ q.Begun done := by
  cases p with
  | filled c a =>
    rw [next, if_pos hw] at h
    obtain rfl := Option.some.inj h
    exact ⟨rfl, trivial⟩
  | link c join links step =>
    cases step with
    | done l =>
      simp only [next, nextInLink, hw] at h
      obtain rfl := Option.some.inj h
      exact ⟨rfl, trivial⟩
    | _ => simp [next, nextInLink, hw] at h
  | list c a es step => cases step <;> exact absurd hp (by simp [stage, ListStep.stage])
  | field c slot => cases slot <;> simp [next, hw, Slot.kind] at h
  | _ => simp [next, hw] at h

theorem fresh_next {p q : Place α} (hp : p.stage = .before) {w : Word} (h : p.next w = some q)
    (done : List Word) : q.entries = [] ∧ q.Begun done := by
  have hstep := (next_cases h).1
  rw [hp] at hstep
  generalize hkind : w.kind = k at hstep
  generalize hstage : q.stage = stage at hstep
  cases hstep with
  | before => exact entries_of_before hstage done
  | opening => exact entries_of_opened hp hkind h done

/-- Within a list, a word goes on with the attribute that was begun, or ends it. -/
theorem shows_nextInList {c : Context} {a : α} {es : List Attribute} {step : ListStep} {w : Word}
    {q : Place α} (h : nextInList c a es w step = some q) {done : List Word}
    (hp : (list c a es step).Shows done) :
    (∀ e ∈ q.entries, e.SpelledIn (done ++ [w])) ∧ q.Begun (done ++ [w]) := by
  have hold : ∀ e ∈ es, e.SpelledIn (done ++ [w]) := fun e he => (hp.entries e he).append [w]
  have hmore : ∀ {a : Attribute}, a.SpelledIn (done ++ [w]) →
      ∀ e ∈ es ++ [a], e.SpelledIn (done ++ [w]) := by
    intro a ha
    exact List.forall_mem_append.mpr ⟨hold, List.forall_mem_singleton.mpr ha⟩
  have hmode := hp.mode.symm
  have hbegun : step.Begun done := hp.begun
  cases step with
  | opened =>
    simp only [nextInList] at h
    split at h
    · next hkind =>
      obtain rfl := Option.some.inj h
      exact ⟨hold, done, rfl, hkind, hmode⟩
    · obtain rfl := Option.some.inj h
      exact ⟨hold, trivial⟩
    · exact absurd h (by simp)
  | key =>
    obtain ⟨hkind, hq⟩ := Option.ite_none_right_eq_some.mp h
    obtain rfl := Option.some.inj hq
    exact ⟨hold, done, rfl, hkind, hmode⟩
  | colon k =>
    obtain ⟨hkind, hq⟩ := Option.ite_none_right_eq_some.mp h
    obtain rfl := Option.some.inj hq
    obtain ⟨front, rfl, hk, hkey⟩ := hbegun
    exact ⟨hold, front, w, by simp, hk, hkind, hkey⟩
  | value k =>
    obtain ⟨front, colon, rfl, hk, hcolon, hkey⟩ := hbegun
    have hbare : (w.kind = .colon ∨ w.kind = .rBrace) →
        (bare k w).SpelledIn (front ++ [k, colon] ++ [w]) := fun hkind =>
      ⟨front, [k, colon], w, [], by simp, .bare hk hcolon hkind, hkey⟩
    simp only [nextInList] at h
    split at h
    · next hkind =>
      obtain rfl := Option.some.inj h
      exact ⟨hold, front, colon, by simp, hk, hcolon, hkind, hkey⟩
    · next hkind =>
      obtain rfl := Option.some.inj h
      exact ⟨hmore (hbare (Or.inl hkind)), trivial⟩
    · next hkind =>
      obtain rfl := Option.some.inj h
      exact ⟨hmore (hbare (Or.inr hkind)), trivial⟩
    · exact absurd h (by simp)
  | separator k v =>
    obtain ⟨front, colon, rfl, hk, hcolon, hv, hkey⟩ := hbegun
    have hvalued : (w.kind = .colon ∨ w.kind = .rBrace) →
        (valued k v).SpelledIn (front ++ [k, colon, v] ++ [w]) := fun hkind =>
      ⟨front, [k, colon, v], w, [], by simp, .valued hk hcolon hv hkind, hkey⟩
    simp only [nextInList] at h
    split at h
    · next hkind =>
      obtain rfl := Option.some.inj h
      exact ⟨hmore (hvalued (Or.inl hkind)), trivial⟩
    · next hkind =>
      obtain rfl := Option.some.inj h
      exact ⟨hmore (hvalued (Or.inr hkind)), trivial⟩
    · exact absurd h (by simp)
  | closed => exact absurd h (by simp [nextInList])

/-- **One word.** A place that is reached shows what the place before did, and the word. -/
theorem shows_next {p q : Place α} {w : Word} (h : p.next w = some q) {done : List Word}
    (hp : p.Shows done) : q.Shows (done ++ [w]) := by
  have hmode : q.stage.mode = Token.Mode.through .outside (kinds (done ++ [w])) := by
    rw [(next_cases h).1.mode, hp.mode, kinds, kinds, List.map_append,
      Token.Mode.through_append]
    rfl
  cases p with
  | list c a es step =>
    obtain ⟨hentries, hbegun⟩ := shows_nextInList h hp
    exact ⟨hmode, hentries, hbegun⟩
  | _ =>
    obtain ⟨hentries, hbegun⟩ := fresh_next rfl h (done ++ [w])
    exact ⟨hmode, fun e he => absurd he (by simp [hentries]), hbegun⟩

-- ============================================================================
-- Lines
-- ============================================================================

/-- **A reading.** It shows what was read. -/
theorem shows_read {p : Place α} {done : List Word} (hp : p.Shows done) (ws : List Word) :
    (p.read ws).place.Shows (done ++ (p.read ws).words) := by
  induction ws generalizing p done with
  | nil =>
    rw [read, List.append_nil]
    exact hp
  | cons w ws ih =>
    cases hnext : p.next w with
    | none =>
      rw [read_cons_of_none hnext, List.append_nil]
      exact hp
    | some q =>
      rw [read_cons_of_some hnext]
      have hmore := ih (shows_next hnext hp)
      rwa [List.append_assoc, List.singleton_append] at hmore

/-- Where a line may end, all attributes have been read. -/
theorem entries_of_result {p : Place α} {a : α} {as : Attributes}
    (h : p.result? = some (a, as)) : p.entries = as.entries := by
  cases p with
  | filled c b =>
    obtain ⟨-, rfl⟩ := Prod.mk.inj (Option.some.inj h)
    rfl
  | link c join links step =>
    cases step with
    | done l =>
      obtain ⟨-, rfl⟩ := Prod.mk.inj (Option.some.inj h)
      rfl
    | _ => exact absurd h (by simp [result?])
  | list c b es step =>
    cases step with
    | closed =>
      obtain ⟨-, rfl⟩ := Prod.mk.inj (Option.some.inj h)
      rfl
    | _ => exact absurd h (by simp [result?])
  | _ => exact absurd h (by simp [result?])

/-- **Attributes of a line.** Each of them is spelled in it. -/
theorem spelledIn_of_outcome {c : Context} {rules : List (Keyword × Rule α)} {line : List Word}
    (hline : InLine line) {stop : Word} {a : α} {as : Attributes}
    (h : ((opening c rules).read line).outcome stop = .ok (a, as)) :
    ∀ e ∈ as.entries, e.SpelledIn line := by
  have hopening : (opening c rules : Place α).Shows [] :=
    ⟨rfl, fun e he => absurd he List.not_mem_nil, trivial⟩
  have hshows := shows_read hopening line
  rw [List.nil_append, words_of_outcome hline h] at hshows
  have hresult := (Reading.outcome_eq_ok_iff.mp h).2
  rw [← entries_of_result hresult]
  exact hshows.entries

end Place

end TimedNet
