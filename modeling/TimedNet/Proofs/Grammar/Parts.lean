/-
  TimedNet.Proofs.Grammar.Parts

  The parts that a reading completes, told from the words that were read. Numerals stand in the
  fields of a rule in order (`Place.fillsFields_read`), and a link is written around an `@`
  (`Place.parts_of_links`). Neither occurs in an attribute list.
-/
import TimedNet.Proofs.Grammar.Content

namespace TimedNet

-- ============================================================================
-- Numerals and links among words
-- ============================================================================

/-- The numerals among words, in order. -/
def numerals (ws : List Word) : List Lexeme :=
  (ws.filter fun w => w.kind = .integer).map Word.lexeme

/-- The link that a word begins, if the word behind it is an `@` and another one follows. -/
def linkFrom (w : Word) : List Word → List (Lexeme × Lexeme)
  | sign :: label :: _ => if sign.kind = .atSign then [(w.lexeme, label.lexeme)] else []
  | _ => []

/-- The links among words, in order: each `@` with the words around it. -/
def linkedNames : List Word → List (Lexeme × Lexeme)
  | [] => []
  | w :: ws => linkFrom w ws ++ linkedNames ws

/-- The slots of a rule that hold numbers. -/
def numericSlots (slots : List Slot) : List Slot := slots.filter (· ≠ .name)

/-- The parts that slots are filled with, from the first on. -/
def fieldParts : List Slot → List Lexeme → List Part
  | slot :: slots, l :: ls => (slot.part? l).toList ++ fieldParts slots ls
  | _, _ => []

theorem fieldParts_nil (slots : List Slot) : fieldParts slots [] = [] := by
  cases slots <;> rfl

theorem numerals_cons_of_ne {w : Word} (h : w.kind ≠ .integer) (ws : List Word) :
    numerals (w :: ws) = numerals ws := by
  simp [numerals, h]

theorem numerals_cons_of_eq {w : Word} (h : w.kind = .integer) (ws : List Word) :
    numerals (w :: ws) = w.lexeme :: numerals ws := by
  simp [numerals, h]

/-- A word that no `@` follows begins no link. -/
theorem linkedNames_cons {w : Word} {ws : List Word} (h : ∀ v ∈ ws.head?, v.kind ≠ .atSign) :
    linkedNames (w :: ws) = linkedNames ws := by
  have hnone : linkFrom w ws = [] := by
    match ws with
    | [] => rfl
    | [v] => rfl
    | v :: v' :: ws => exact if_neg (h v rfl)
  rw [linkedNames, hnone, List.nil_append]

theorem linkedNames_eq_nil {ws : List Word} (h : ∀ w ∈ ws, w.kind ≠ .atSign) :
    linkedNames ws = [] := by
  induction ws with
  | nil => rfl
  | cons w ws ih =>
    obtain ⟨-, hws⟩ := List.forall_mem_cons.mp h
    rw [linkedNames_cons fun v hv => hws v (List.mem_of_head? hv)]
    exact ih hws

namespace Place

variable {α : Type}

/-- The first word that is read may come next. -/
theorem next_of_mem_head? {p : Place α} {ws : List Word} {w : Word}
    (h : w ∈ (p.read ws).words.head?) : ∃ q, p.next w = some q := by
  cases ws with
  | nil => exact absurd h (by simp [read])
  | cons v ws =>
    cases hnext : p.next v with
    | none => exact absurd h (by simp [read_cons_of_none hnext])
    | some q =>
      rw [read_cons_of_some hnext, List.head?_cons] at h
      obtain rfl : v = w := Option.some.inj h
      exact ⟨q, hnext⟩

-- ============================================================================
-- Fields
-- ============================================================================

/-- The fields that are left at a place behind the keyword of a rule with fields. Attribute lists
have none. -/
def fieldsLeft? : Place α → Option (List Slot)
  | .colon _ slot slots _ => some (slot :: slots)
  | .field _ slot slots _ => some (slot :: slots)
  | .filled .. => some []
  | .list .. => some []
  | _ => none

theorem fieldsLeft?_ofSlots (c : Context) (slots : List Slot) (fill : Filling α slots) :
    (ofSlots c slots fill).fieldsLeft? = some slots := by
  cases slots <;> rfl

/-- **One word** behind the keyword of a rule with fields. It fills the next field, or it is neither
a numeral nor an `@`. -/
theorem fieldsLeft?_next {p q : Place α} {w : Word} {slots : List Slot}
    (hp : p.fieldsLeft? = some slots) (h : p.next w = some q) :
    (q.fieldsLeft? = some slots ∧ p.part? w = none ∧ w.kind ≠ .integer ∧ w.kind ≠ .atSign) ∨
      ∃ slot more, slots = slot :: more ∧ q.fieldsLeft? = some more ∧ w.kind = slot.kind ∧
        p.part? w = slot.part? w.lexeme := by
  cases p with
  | opening c rules => exact absurd hp (by simp [fieldsLeft?])
  | link c join links step => exact absurd hp (by simp [fieldsLeft?])
  | colon c slot slots fill =>
    obtain ⟨hkind, hq⟩ := Option.ite_none_right_eq_some.mp h
    obtain rfl := Option.some.inj hq
    exact Or.inl ⟨hp, rfl, by simp [hkind], by simp [hkind]⟩
  | field c slot slots fill =>
    obtain ⟨hkind, hq⟩ := Option.ite_none_right_eq_some.mp h
    obtain rfl := Option.some.inj hq
    refine Or.inr ⟨slot, slots, (Option.some.inj hp).symm, ?_, hkind, by cases slot <;> rfl⟩
    exact fieldsLeft?_ofSlots c slots _
  | filled c a =>
    obtain ⟨hkind, hq⟩ := Option.ite_none_right_eq_some.mp h
    obtain rfl := Option.some.inj hq
    exact Or.inl ⟨hp, rfl, by simp [hkind], by simp [hkind]⟩
  | list c a entries step =>
    left
    have hinside : q.isOutside = false := isOutside_nextInList h
    refine ⟨?_, rfl, fun hkind => ?_, fun hkind => ?_⟩
    · cases q with
      | list => exact hp
      | _ => exact absurd hinside (by simp [isOutside])
    · cases step <;> simp [next, nextInList, hkind] at h
    · cases step <;> simp [next, nextInList, hkind] at h

/-- A reading of fields: the parts that are completed are the numerals that are read, each in its
slot, there are no more of them than slots for numbers, and no `@` is read. -/
structure FillsFields (slots : List Slot) (r : Reading α) : Prop where
  parts : r.parts = fieldParts (numericSlots slots) (numerals r.words)
  length_le : (numerals r.words).length ≤ (numericSlots slots).length
  noSign : ∀ w ∈ r.words, w.kind ≠ .atSign

/-- **Fields.** By the recursion on the words; each of them fills a field or stands between. -/
theorem fillsFields_read {p : Place α} {slots : List Slot} (hp : p.fieldsLeft? = some slots)
    (ws : List Word) : FillsFields slots (p.read ws) := by
  induction ws generalizing p slots with
  | nil => exact ⟨(fieldParts_nil _).symm, Nat.zero_le _, by simp [read]⟩
  | cons w ws ih =>
    cases hnext : p.next w with
    | none =>
      rw [read_cons_of_none hnext]
      exact ⟨(fieldParts_nil _).symm, Nat.zero_le _, by simp⟩
    | some q =>
      rw [read_cons_of_some hnext]
      rcases fieldsLeft?_next hp hnext with ⟨hq, hpart, hnumeral, hsign⟩ |
        ⟨slot, more, rfl, hq, hkind, hpart⟩
      · have hfills := ih hq
        refine ⟨?_, ?_, List.forall_mem_cons.mpr ⟨hsign, hfills.noSign⟩⟩
        · simpa [hpart, numerals_cons_of_ne hnumeral] using hfills.parts
        · simpa [numerals_cons_of_ne hnumeral] using hfills.length_le
      · have hfills := ih hq
        cases slot with
        | name =>
          have hnumeral : w.kind ≠ .integer := by simp [hkind, Slot.kind]
          have hslots : numericSlots (.name :: more) = numericSlots more := by simp [numericSlots]
          refine ⟨?_, ?_, List.forall_mem_cons.mpr ⟨by simp [hkind, Slot.kind], hfills.noSign⟩⟩
          · simpa [hpart, Slot.part?, hslots, numerals_cons_of_ne hnumeral] using hfills.parts
          · simpa [hslots, numerals_cons_of_ne hnumeral] using hfills.length_le
        | size | bound =>
          have hnumeral : w.kind = .integer := hkind
          refine ⟨?_, ?_, List.forall_mem_cons.mpr ⟨by simp [hkind, Slot.kind], hfills.noSign⟩⟩
          · rw [numerals_cons_of_eq hnumeral, hpart, hfills.parts]
            rfl
          · simpa [numericSlots, numerals_cons_of_eq hnumeral] using hfills.length_le

-- ============================================================================
-- Links
-- ============================================================================

/-- The words of the link that is being read. -/
def LinkBegun (begun : List Word) : LinkStep → Prop
  | .atSign owner => ∃ w, begun = [w] ∧ w.lexeme = owner
  | .event owner => ∃ w sign, begun = [w, sign] ∧ w.lexeme = owner ∧ sign.kind = .atSign
  | _ => begun = []

/-- A link that was only begun is none yet. -/
theorem linkedNames_begun {step : LinkStep} {begun : List Word} (h : LinkBegun begun step) :
    linkedNames begun = [] := by
  cases step with
  | atSign owner =>
    obtain ⟨w, rfl, -⟩ := h
    rfl
  | event owner =>
    obtain ⟨w, sign, rfl, -, -⟩ := h
    rfl
  | _ =>
    obtain rfl : begun = [] := h
    rfl

/-- Where no `@` may come next, a word before the words that are read begins no link. -/
theorem linkedNames_cons_read {p : Place α} (hp : ∀ v : Word, v.kind = .atSign → p.next v = none)
    (w : Word) (ws : List Word) :
    linkedNames (w :: (p.read ws).words) = linkedNames (p.read ws).words := by
  refine linkedNames_cons fun v hv hkind => ?_
  obtain ⟨q, hq⟩ := next_of_mem_head? hv
  exact absurd ((hp v hkind).symm.trans hq) (by simp)

/-- An `@` comes only behind the process of a link. -/
theorem next_link_of_sign {c : Context} {join : List Link → α} {links : List Link} {step : LinkStep}
    (hstep : ∀ owner, step ≠ .atSign owner) :
    ∀ v : Word, v.kind = .atSign → (link c join links step).next v = none := by
  intro v hv
  cases step with
  | atSign owner => exact absurd rfl (hstep owner)
  | _ => simp [next, nextInLink, hv]

/-- The names around an `@` are a link; the words behind it begin anew. -/
theorem linkedNames_link {v sign w : Word} (hsign : sign.kind = .atSign) (hw : w.kind ≠ .atSign)
    (ws : List Word) :
    linkedNames (v :: sign :: w :: ws) = (v.lexeme, w.lexeme) :: linkedNames (w :: ws) := by
  have hfrom : linkFrom v (sign :: w :: ws) = [(v.lexeme, w.lexeme)] := if_pos hsign
  have hnone : ∀ u ∈ (w :: ws).head?, u.kind ≠ .atSign := by simpa using hw
  rw [linkedNames, hfrom, linkedNames_cons hnone]
  rfl

/-- Reading on in an attribute list completes no part: there are no links in it. -/
theorem parts_of_list {c : Context} {a : α} {entries : List Attribute} {step : ListStep} {w : Word}
    (hw : w.kind ≠ .atSign) (ws : List Word) :
    ((list c a entries step).read ws).parts =
      (linkedNames (w :: ((list c a entries step).read ws).words)).map fun (owner, label) =>
        .link owner label := by
  have hlist := fillsFields_read (p := list c a entries step) rfl ws
  rw [linkedNames_eq_nil (List.forall_mem_cons.mpr ⟨hw, hlist.noSign⟩), hlist.parts]
  rfl

/-- **Links.** The parts that are completed are the links among the words that are read, with those
of the link that was begun before them. -/
theorem parts_of_links {c : Context} {join : List Link → α} {links : List Link} {step : LinkStep}
    {begun : List Word} (hbegun : LinkBegun begun step) (ws : List Word) :
    ((link c join links step).read ws).parts =
      (linkedNames (begun ++ ((link c join links step).read ws).words)).map fun (owner, label) =>
        .link owner label := by
  induction ws generalizing links step begun with
  | nil => simp [read, linkedNames_begun hbegun]
  | cons w ws ih =>
    cases hnext : (link c join links step).next w with
    | none => simp [read_cons_of_none hnext, linkedNames_begun hbegun]
    | some q =>
      rw [read_cons_of_some hnext]
      cases step with
      | lead =>
        obtain ⟨-, hq⟩ := Option.ite_none_right_eq_some.mp hnext
        obtain rfl := Option.some.inj hq
        obtain rfl : begun = [] := hbegun
        have hprocess : LinkBegun [] .process := rfl
        rw [List.nil_append, linkedNames_cons_read (next_link_of_sign (by simp))]
        exact ih hprocess
      | process =>
        obtain ⟨-, hq⟩ := Option.ite_none_right_eq_some.mp hnext
        obtain rfl := Option.some.inj hq
        obtain rfl : begun = [] := hbegun
        have hsign : LinkBegun [w] (.atSign w.lexeme) := ⟨w, rfl, rfl⟩
        exact ih hsign
      | atSign owner =>
        obtain ⟨hkind, hq⟩ := Option.ite_none_right_eq_some.mp hnext
        obtain rfl := Option.some.inj hq
        obtain ⟨v, rfl, hv⟩ := hbegun
        have hevent : LinkBegun [v, w] (.event owner) := ⟨v, w, rfl, hv, hkind⟩
        exact ih hevent
      | event owner =>
        obtain ⟨hkind, hq⟩ := Option.ite_none_right_eq_some.mp hnext
        obtain rfl := Option.some.inj hq
        obtain ⟨v, sign, rfl, rfl, hsign⟩ := hbegun
        have hdone : LinkBegun [] (.done (.strong v.lexeme w.lexeme)) := rfl
        rw [List.cons_append, List.cons_append, List.nil_append,
          linkedNames_link hsign (by simp [hkind]),
          linkedNames_cons_read (next_link_of_sign (by simp)), List.map_cons]
        exact congrArg (Part.link v.lexeme w.lexeme :: ·) (ih hdone)
      | done l =>
        obtain rfl : begun = [] := hbegun
        rw [List.nil_append]
        simp only [next, nextInLink] at hnext
        split at hnext
        · obtain ⟨-, hq⟩ := Option.ite_none_right_eq_some.mp hnext
          obtain rfl := Option.some.inj hq
          have hdone : LinkBegun [] (.done (l.weaken w)) := rfl
          rw [linkedNames_cons_read (next_link_of_sign (by simp))]
          exact ih hdone
        · obtain rfl := Option.some.inj hnext
          have hprocess : LinkBegun [] .process := rfl
          rw [linkedNames_cons_read (next_link_of_sign (by simp))]
          exact ih hprocess
        · next hkind =>
          obtain rfl := Option.some.inj hnext
          exact parts_of_list (by simp [hkind]) ws
        · exact absurd hnext (by simp)

end Place

-- ============================================================================
-- Declarations
-- ============================================================================

/-- The parts that numerals make up behind the keyword of a variable: its size, then its bounds and
its initial value. -/
def numberParts : List Lexeme → List Part
  | [] => []
  | size :: bounds => .size size :: bounds.map .bound

/-- The parts among the words that a declaration begins with, by its keyword. -/
def partsAmong (ws : List Word) : List Part :=
  match ws.head?.map Word.kind with
  | some (.keyword .clock) => numberParts (numerals ws)
  | some (.keyword .int) => numberParts (numerals ws)
  | some (.keyword .sync) => (linkedNames ws).map fun (owner, label) => .link owner label
  | _ => []

/-- Bounds fill the slots for bounds from the first on. -/
theorem fieldParts_bounds {n : Nat} {bounds : List Lexeme} (h : bounds.length ≤ n) :
    fieldParts (List.replicate n .bound) bounds = bounds.map .bound := by
  induction bounds generalizing n with
  | nil => cases n <;> rfl
  | cons l bounds ih =>
    obtain ⟨n, rfl⟩ := Nat.exists_eq_add_of_le' (Nat.lt_of_lt_of_le (Nat.succ_pos _) h)
    exact congrArg (Part.bound l :: ·) (ih (Nat.le_of_succ_le_succ h))

/-- What a variable with a size and some bounds is read as. -/
theorem Place.FillsFields.parts_of_numbers {α : Type} {slots : List Slot} {r : Reading α}
    (h : FillsFields slots r) {n : Nat}
    (hslots : numericSlots slots = .size :: List.replicate n .bound) :
    r.parts = numberParts (numerals r.words) := by
  have hlength := h.length_le
  rw [hslots, List.length_cons, List.length_replicate] at hlength
  rw [h.parts, hslots]
  cases hnumerals : numerals r.words with
  | nil => rfl
  | cons size bounds =>
    rw [hnumerals, List.length_cons] at hlength
    exact congrArg (Part.size size :: ·) (fieldParts_bounds (Nat.le_of_succ_le_succ hlength))

/-- **Declarations.** The parts that are completed can be told from the words that are read. -/
theorem Phrase.parts_read_opening (ws : List Word) :
    (opening.read ws).parts = partsAmong (opening.read ws).words := by
  cases ws with
  | nil => rfl
  | cons w ws =>
    cases hnext : opening.next w with
    | none =>
      rw [Place.read_cons_of_none hnext]
      rfl
    | some q =>
      rw [Place.read_cons_of_some hnext]
      simp only [opening, Place.next] at hnext
      split at hnext
      · next k hkind =>
        obtain ⟨r, hlookup, rfl⟩ := Option.map_eq_some_iff.mp hnext
        have hnumerals := numerals_cons_of_ne (w := w) (by simp [hkind])
        have hfields : ∀ c slots fill, r = .fields c slots fill →
            Place.FillsFields slots ((Place.ofRule r).read ws) := by
          rintro c slots fill rfl
          exact Place.fillsFields_read (Place.fieldsLeft?_ofSlots c slots fill) ws
        show ((Place.ofRule r).read ws).parts = _
        simp only [partsAmong, List.head?_cons, Option.map_some, hkind, hnumerals]
        cases k with
        | system =>
          have hnone : rules.lookup .system = none := rfl
          exact absurd (hnone.symm.trans hlookup) (by simp)
        | clock =>
          obtain rfl := Option.some.inj hlookup
          exact (hfields _ _ _ rfl).parts_of_numbers (n := 0) rfl
        | int =>
          obtain rfl := Option.some.inj hlookup
          exact (hfields _ _ _ rfl).parts_of_numbers (n := 3) rfl
        | event =>
          obtain rfl := Option.some.inj hlookup
          exact (hfields _ _ _ rfl).parts
        | process =>
          obtain rfl := Option.some.inj hlookup
          exact (hfields _ _ _ rfl).parts
        | location =>
          obtain rfl := Option.some.inj hlookup
          exact (hfields _ _ _ rfl).parts
        | edge =>
          obtain rfl := Option.some.inj hlookup
          exact (hfields _ _ _ rfl).parts
        | sync =>
          obtain rfl := Option.some.inj hlookup
          have hbegun : Place.LinkBegun [] .lead := rfl
          rw [Place.ofRule, Place.linkedNames_cons_read (Place.next_link_of_sign (by simp))]
          exact Place.parts_of_links hbegun ws
      · exact absurd hnext (by simp)

end TimedNet
