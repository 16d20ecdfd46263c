/-
  TimedNet.Proofs.Grammar.Content

  What is known of what was read. A place is sound if all names that were read on the way to it are
  names, all attributes are printable, and the parts that were completed are those of what has been
  made up so far. Every word of a text leads from a sound place to a sound place, so a reading that
  begins at one ends at one (`sound_read`).
-/
import TimedNet.Grammar.Phrase
import TimedNet.Grammar.Reading
import TimedNet.Proofs.Token.Printing
import TimedNet.Proofs.Text.Trim

namespace TimedNet

-- ============================================================================
-- Parts of phrases
-- ============================================================================

/-- The part that a field is. -/
def Slot.part? (l : Lexeme) : Slot → Option Part
  | .size => some (.size l)
  | .bound => some (.bound l)
  | .name => none

namespace Link

/-- The part that a link is. -/
def part (l : Link) : Part := .link l.process l.event

def HasNames (l : Link) : Prop := IsName l.process.text ∧ IsName l.event.text

end Link

namespace Phrase

/-- The parts of a phrase, in order. -/
def parts : Phrase → List Part
  | .clock size _ => [.size size]
  | .int size min max initial _ => [.size size, .bound min, .bound max, .bound initial]
  | .sync links => links.map Link.part
  | _ => []

/-- All names in a phrase are names, and a synchronization has links. -/
def HasNames : Phrase → Prop
  | .clock _ name => IsName name.text
  | .int _ _ _ _ name => IsName name.text
  | .event name => IsName name.text
  | .process name => IsName name.text
  | .location owner name => IsName owner.text ∧ IsName name.text
  | .edge owner target source label =>
    IsName owner.text ∧ IsName target.text ∧ IsName source.text ∧ IsName label.text
  | .sync links => links ≠ [] ∧ ∀ l ∈ links, l.HasNames

/-- What is read of a declaration. -/
def Sound (φ : Phrase) (parts : List Part) : Prop := φ.HasNames ∧ parts = φ.parts

end Phrase

/-- What is read of the declaration of the network. -/
def Header.Sound (name : Lexeme) (parts : List Part) : Prop := IsName name.text ∧ parts = []

-- ============================================================================
-- Sound places
-- ============================================================================

section Soundness

variable {α : Type} (S : α → List Part → Prop)

/-- What fields make up is sound if the names among them are names. -/
def FillingSound : (slots : List Slot) → Filling α slots → List Part → Prop
  | [], a, parts => S a parts
  | slot :: slots, fill, parts => ∀ l : Lexeme, (slot = .name → IsName l.text) →
    FillingSound slots (fill l) (parts ++ (slot.part? l).toList)

/-- What links make up is sound. -/
def JoinSound (join : List Link → α) : Prop :=
  ∀ links, links ≠ [] → (∀ l ∈ links, l.HasNames) → S (join links) (links.map Link.part)

def Rule.Sound : Rule α → Prop
  | .fields _ slots fill => FillingSound S slots fill []
  | .links _ join => JoinSound S join

/-- What is known within a link, behind others. -/
def LinkStep.Sound (links : List Link) (parts : List Part) : LinkStep → Prop
  | .lead => parts = links.map Link.part
  | .process => parts = links.map Link.part
  | .atSign owner => IsName owner.text ∧ parts = links.map Link.part
  | .event owner => IsName owner.text ∧ parts = links.map Link.part
  | .done l => l.HasNames ∧ parts = (links ++ [l]).map Link.part

/-- What is known within an attribute list. -/
def ListStep.Sound : ListStep → Prop
  | .colon k => IsWord k.text
  | .value k => IsWord k.text
  | .separator k v => IsWord k.text ∧ IsRawValue v.text
  | _ => True

namespace Place

/-- What has been read on the way to a place, and the parts that were completed. -/
def Sound : Place α → List Part → Prop
  | .opening _ rules, parts => parts = [] ∧ ∀ r ∈ rules, r.2.Sound S
  | .colon _ slot slots fill, parts => FillingSound S (slot :: slots) fill parts
  | .field _ slot slots fill, parts => FillingSound S (slot :: slots) fill parts
  | .filled _ a, parts => S a parts
  | .link _ join links step, parts =>
    JoinSound S join ∧ (∀ l ∈ links, l.HasNames) ∧ step.Sound links parts
  | .list _ a entries step, parts =>
    S a parts ∧ (∀ e ∈ entries, e.IsPrintable) ∧ step.Sound

/-- Whether a place is outside of an attribute list. -/
def isOutside : Place α → Bool
  | .list .. => false
  | _ => true

variable {S}

theorem sound_ofSlots {c : Context} {slots : List Slot} {fill : Filling α slots}
    {parts : List Part} (h : FillingSound S slots fill parts) :
    (ofSlots c slots fill).Sound S parts := by
  cases slots with
  | nil => exact h
  | cons slot slots => exact h

theorem sound_ofRule {r : Rule α} (h : r.Sound S) : (ofRule r).Sound S [] := by
  cases r with
  | fields c slots fill => exact sound_ofSlots h
  | links c join => exact ⟨h, by simp, rfl⟩

-- ============================================================================
-- One word
-- ============================================================================

/-- A value is printed without the blanks around it. -/
theorem isPrintable_valued {key value : Word} (hkey : IsWord key.text)
    (hvalue : IsRawValue value.text) : (valued key value).IsPrintable := by
  refine ⟨hkey, fun c hc => hvalue c ?_, Text.trim_trim value.text⟩
  have hc' : c ∈ (Text.trim value.text).toList := hc
  rw [Text.toList_trim] at hc'
  exact Text.trimChars_subset _ hc'

theorem isPrintable_bare {key : Word} (hkey : IsWord key.text) (next : Word) :
    (bare key next).IsPrintable := by
  refine ⟨hkey, fun c hc => ?_, Text.trim_trim ""⟩
  have hc' : c ∈ (Text.trim "").toList := hc
  rw [Text.toList_trim] at hc'
  exact absurd (Text.trimChars_subset _ hc') (by simp)

theorem isOutside_nextInList {c : Context} {a : α} {entries : List Attribute} {w : Word}
    {step : ListStep} {q : Place α} (h : nextInList c a entries w step = some q) :
    q.isOutside = false := by
  cases step with
  | closed => exact absurd h (by simp [nextInList])
  | _ =>
    simp only [nextInList] at h
    split at h <;> cases h <;> rfl

/-- Only a `{` leads into an attribute list, and no word leads out of one. -/
theorem isOutside_of_next {p q : Place α} {w : Word} (h : p.next w = some q)
    (hq : q.isOutside = true) : p.isOutside = true ∧ w.kind ≠ .lBrace := by
  cases p with
  | opening c rules =>
    refine ⟨rfl, fun hk => ?_⟩
    simp [next, hk] at h
  | colon c slot slots fill =>
    refine ⟨rfl, fun hk => ?_⟩
    simp [next, hk] at h
  | field c slot slots fill =>
    refine ⟨rfl, fun hk => ?_⟩
    cases slot <;> simp [next, hk, Slot.kind] at h
  | filled c a =>
    simp only [next] at h
    split at h
    · obtain rfl := Option.some.inj h
      exact absurd hq (by simp [isOutside])
    · exact absurd h (by simp)
  | link c join links step =>
    refine ⟨rfl, fun hk => ?_⟩
    cases step with
    | done l =>
      simp only [next, nextInLink, hk, Option.some.injEq] at h
      subst h
      exact absurd hq (by simp [isOutside])
    | _ => simp [next, nextInLink, hk] at h
  | list c a entries step => exact absurd hq (by simp [isOutside_nextInList h])

theorem hasNames_concat {links : List Link} (hlinks : ∀ l ∈ links, l.HasNames) {l : Link}
    (hl : l.HasNames) : ∀ l' ∈ links ++ [l], l'.HasNames := by
  intro l' hl'
  rcases List.mem_append.mp hl' with hl' | hl'
  · exact hlinks l' hl'
  · exact List.mem_singleton.mp hl' ▸ hl

theorem sound_nextInLink {c : Context} {join : List Link → α} {links : List Link} {step : LinkStep}
    {parts : List Part} {w : Word} {q : Place α}
    (hjoin : JoinSound S join) (hlinks : ∀ l ∈ links, l.HasNames) (hstep : step.Sound links parts)
    (hname : w.kind = .ident → IsName w.text) (h : nextInLink c join links w step = some q) :
    q.Sound S (parts ++ ((link c join links step).part? w).toList) := by
  cases step with
  | lead =>
    obtain ⟨-, hq⟩ := Option.ite_none_right_eq_some.mp h
    obtain rfl := Option.some.inj hq
    have hparts : parts = links.map Link.part := hstep
    exact ⟨hjoin, hlinks, (List.append_nil parts).trans hparts⟩
  | process =>
    obtain ⟨hkind, hq⟩ := Option.ite_none_right_eq_some.mp h
    obtain rfl := Option.some.inj hq
    have hparts : parts = links.map Link.part := hstep
    exact ⟨hjoin, hlinks, hname hkind, (List.append_nil parts).trans hparts⟩
  | atSign owner =>
    obtain ⟨-, hq⟩ := Option.ite_none_right_eq_some.mp h
    obtain rfl := Option.some.inj hq
    exact ⟨hjoin, hlinks, hstep.1, (List.append_nil parts).trans hstep.2⟩
  | event owner =>
    obtain ⟨hkind, hq⟩ := Option.ite_none_right_eq_some.mp h
    obtain rfl := Option.some.inj hq
    refine ⟨hjoin, hlinks, ⟨hstep.1, hname hkind⟩, ?_⟩
    rw [hstep.2, List.map_append]
    rfl
  | done l =>
    have hall := hasNames_concat hlinks hstep.1
    have hpart : (link c join links (.done l)).part? w = none := rfl
    rw [hpart, Option.toList_none, List.append_nil]
    simp only [nextInLink] at h
    split at h
    · -- the mark behind a link changes neither its names nor its part
      obtain ⟨-, hq⟩ := Option.ite_none_right_eq_some.mp h
      obtain rfl := Option.some.inj hq
      refine ⟨hjoin, hlinks, hstep.1, ?_⟩
      rw [hstep.2, List.map_append, List.map_append]
      rfl
    · obtain rfl := Option.some.inj h
      exact ⟨hjoin, hall, hstep.2⟩
    · obtain rfl := Option.some.inj h
      refine ⟨?_, by simp, trivial⟩
      rw [hstep.2]
      exact hjoin _ (by simp) hall
    · exact absurd h (by simp)

theorem sound_nextInList {c : Context} {a : α} {entries : List Attribute} {step : ListStep}
    {parts : List Part} {w : Word} {q : Place α} (ha : S a parts)
    (hentries : ∀ e ∈ entries, e.IsPrintable) (hstep : step.Sound) {outside : Bool}
    (hw : IsToken outside w.kind w.text) (h : nextInList c a entries w step = some q) :
    q.Sound S parts := by
  have hmore : ∀ e' : Attribute, e'.IsPrintable → ∀ e ∈ entries ++ [e'], e.IsPrintable := by
    intro e' he' e he
    rcases List.mem_append.mp he with he | he
    · exact hentries e he
    · exact List.mem_singleton.mp he ▸ he'
  cases step with
  | opened =>
    simp only [nextInList] at h
    split at h
    · next hkind =>
      obtain rfl := Option.some.inj h
      exact ⟨ha, hentries, hw.word hkind⟩
    · obtain rfl := Option.some.inj h
      exact ⟨ha, hentries, trivial⟩
    · exact absurd h (by simp)
  | key =>
    obtain ⟨hkind, hq⟩ := Option.ite_none_right_eq_some.mp h
    obtain rfl := Option.some.inj hq
    exact ⟨ha, hentries, hw.word hkind⟩
  | colon k =>
    obtain ⟨-, hq⟩ := Option.ite_none_right_eq_some.mp h
    obtain rfl := Option.some.inj hq
    exact ⟨ha, hentries, hstep⟩
  | value k =>
    simp only [nextInList] at h
    split at h
    · next hkind =>
      obtain rfl := Option.some.inj h
      exact ⟨ha, hentries, hstep, hw.value hkind⟩
    · obtain rfl := Option.some.inj h
      exact ⟨ha, hmore _ (isPrintable_bare hstep w), trivial⟩
    · obtain rfl := Option.some.inj h
      exact ⟨ha, hmore _ (isPrintable_bare hstep w), trivial⟩
    · exact absurd h (by simp)
  | separator k v =>
    simp only [nextInList] at h
    split at h
    · obtain rfl := Option.some.inj h
      exact ⟨ha, hmore _ (isPrintable_valued hstep.1 hstep.2), trivial⟩
    · obtain rfl := Option.some.inj h
      exact ⟨ha, hmore _ (isPrintable_valued hstep.1 hstep.2), trivial⟩
    · exact absurd h (by simp)
  | closed => exact absurd h (by simp [nextInList])

/-- **One word.** A word that may come next leads from a sound place to a sound place. -/
theorem sound_next {p q : Place α} {parts : List Part} (hp : p.Sound S parts) {w : Word}
    {outside : Bool} (hw : IsToken outside w.kind w.text)
    (houtside : p.isOutside = true → outside = true) (h : p.next w = some q) :
    q.Sound S (parts ++ (p.part? w).toList) := by
  have hname : p.isOutside = true → w.kind = .ident → IsName w.text := fun hout hkind =>
    ⟨hw.word hkind, hw.noKeyword hkind (houtside hout)⟩
  cases p with
  | opening c rules =>
    obtain ⟨rfl, hrules⟩ := hp
    simp only [next] at h
    split at h
    · next k hkind =>
      obtain ⟨r, hlookup, rfl⟩ := Option.map_eq_some_iff.mp h
      obtain ⟨before, after, rfl, -⟩ := List.lookup_eq_some_iff.mp hlookup
      exact sound_ofRule (hrules (k, r) (by simp))
    · exact absurd h (by simp)
  | colon c slot slots fill =>
    obtain ⟨-, hq⟩ := Option.ite_none_right_eq_some.mp h
    obtain rfl := Option.some.inj hq
    rw [show (colon c slot slots fill).part? w = none from rfl, Option.toList_none, List.append_nil]
    exact hp
  | field c slot slots fill =>
    obtain ⟨hkind, hq⟩ := Option.ite_none_right_eq_some.mp h
    obtain rfl := Option.some.inj hq
    have hpart : (field c slot slots fill).part? w = slot.part? w.lexeme := by
      cases slot <;> rfl
    rw [hpart]
    refine sound_ofSlots (hp w.lexeme fun hslot => hname rfl ?_)
    rw [hkind, hslot]
    rfl
  | filled c a =>
    obtain ⟨-, hq⟩ := Option.ite_none_right_eq_some.mp h
    obtain rfl := Option.some.inj hq
    rw [show (filled c a).part? w = none from rfl, Option.toList_none, List.append_nil]
    exact ⟨hp, by simp, trivial⟩
  | link c join links step =>
    obtain ⟨hjoin, hlinks, hstep⟩ := hp
    exact sound_nextInLink hjoin hlinks hstep (hname rfl) h
  | list c a entries step =>
    obtain ⟨ha, hentries, hstep⟩ := hp
    have hq := sound_nextInList ha hentries hstep hw h
    simpa [part?] using hq

-- ============================================================================
-- Readings
-- ============================================================================

/-- **A reading.** From a sound place, the words of a text lead to a sound place. -/
theorem sound_read {p : Place α} {parts : List Part} (hp : p.Sound S parts) {ws : List Word}
    {outside : Bool} (hws : Lexical outside (ws.map Word.shape))
    (houtside : p.isOutside = true → outside = true) :
    (p.read ws).place.Sound S (parts ++ (p.read ws).parts) := by
  induction ws generalizing p parts outside with
  | nil => simpa [read] using hp
  | cons w ws ih =>
    obtain ⟨hw, hrest⟩ := hws
    cases hnext : p.next w with
    | none => simpa [read_cons_of_none hnext] using hp
    | some q =>
      have hq := sound_next hp hw houtside hnext
      have hstill : q.isOutside = true → isOutsideAfter outside w.kind = true := by
        intro hout
        obtain ⟨hp', hbrace⟩ := isOutside_of_next hnext hout
        have hkind : isOutsideAfter true w.kind = true := by
          cases hk : w.kind <;> simp_all [isOutsideAfter]
        rwa [houtside hp']
      rw [read_cons_of_some hnext, ← List.append_assoc]
      exact ih hq hrest hstill

/-- What has been read where the line may end. -/
theorem sound_of_result {p : Place α} {parts : List Part} (hp : p.Sound S parts) {a : α}
    {as : Attributes} (h : p.result? = some (a, as)) :
    S a parts ∧ ∀ e ∈ as.entries, e.IsPrintable := by
  cases p with
  | filled c b =>
    obtain ⟨rfl, rfl⟩ := Prod.mk.inj (Option.some.inj h)
    exact ⟨hp, by simp⟩
  | link c join links step =>
    obtain ⟨hjoin, hlinks, hstep⟩ := hp
    cases step with
    | done l =>
      obtain ⟨rfl, rfl⟩ := Prod.mk.inj (Option.some.inj h)
      refine ⟨?_, by simp⟩
      rw [hstep.2]
      exact hjoin _ (by simp) (hasNames_concat hlinks hstep.1)
    | _ => exact absurd h (by simp [result?])
  | list c b entries step =>
    obtain ⟨hb, hentries, -⟩ := hp
    cases step with
    | closed =>
      obtain ⟨rfl, rfl⟩ := Prod.mk.inj (Option.some.inj h)
      exact ⟨hb, hentries⟩
    | _ => exact absurd h (by simp [result?])
  | _ => exact absurd h (by simp [result?])

/-- What a reading makes up is sound, and so are the attributes. -/
theorem sound_of_outcome {p : Place α} (hp : p.Sound S []) {ws : List Word}
    (hws : Lexical true (ws.map Word.shape)) {close : Word} {a : α} {as : Attributes}
    (h : (p.read ws).outcome close = .ok (a, as)) :
    S a (p.read ws).parts ∧ ∀ e ∈ as.entries, e.IsPrintable := by
  have hplace := sound_read hp hws fun _ => rfl
  rw [List.nil_append] at hplace
  exact sound_of_result hplace (Reading.outcome_eq_ok_iff.mp h).2

end Place

end Soundness

namespace Phrase

/-- The rules of the declarations make up what is sound. -/
theorem sound_opening : opening.Sound Sound [] := by
  refine ⟨rfl, ?_⟩
  simp only [rules, List.mem_cons, List.not_mem_nil, or_false]
  rintro r (rfl | rfl | rfl | rfl | rfl | rfl | rfl)
  · exact fun size _ name hname => ⟨hname rfl, rfl⟩
  · exact fun p hp t ht o ho e he => ⟨⟨hp rfl, ht rfl, ho rfl, he rfl⟩, rfl⟩
  · exact fun name hname => ⟨hname rfl, rfl⟩
  · exact fun size _ min _ max _ initial _ name hname => ⟨hname rfl, rfl⟩
  · exact fun p hp name hname => ⟨⟨hp rfl, hname rfl⟩, rfl⟩
  · exact fun name hname => ⟨hname rfl, rfl⟩
  · exact fun links hne hlinks => ⟨⟨hne, hlinks⟩, rfl⟩

end Phrase

theorem Header.sound_opening : opening.Sound Sound [] := by
  refine ⟨rfl, ?_⟩
  simp only [rules, List.mem_singleton]
  rintro r rfl
  exact fun name hname => ⟨hname rfl, rfl⟩

end TimedNet
