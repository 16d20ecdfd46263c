/-
  TimedNet.Proofs.Token.Printing

  Scanning what is printed. `Scans m cs ss` says that the characters `cs` are scanned as tokens of
  the kinds and texts `ss`, wherever they stand; what is known of a rest is carried over to the rest
  with one more lexeme in front. So the tokens of a printed attribute list and of printed fields are
  told from the end of the text on.
-/
import Mathlib.Data.List.Forall2
import TimedNet.Proofs.Text.Decimal
import TimedNet.Proofs.Token.Lexical
import TimedNet.Declaration.Attribute

namespace TimedNet

open Token

/-- The kinds and texts of the tokens of a text. -/
def Scans (m : Mode) (cs : List Char) (ss : List Shape) : Prop :=
  ∀ offset, (scanFrom m offset cs).map shape = ss

/-- The kind of a word outside of attribute lists. -/
def wordKind (text : String) : TokenKind :=
  match Keyword.ofText? text with
  | some k => .keyword k
  | none => .ident

/-- A digit, or a `-` before digits, followed by digits. -/
def IsNumber (text : String) : Prop :=
  ∃ c tail, text = String.ofList (c :: tail) ∧ (c.isDigit = true ∨ (c = '-' ∧ tail ≠ [])) ∧
    ∀ d ∈ tail, d.isDigit = true

/-- A character that is a lexeme by itself. -/
def symbolShape (c : Char) : Shape := (symbol c, String.ofList [c])

/-- The characters that are lexemes by themselves. -/
def isStop (c : Char) : Bool := symbol c != .invalid

/-- Nothing, or characters that no lexeme before them goes on with. -/
def Stops (cs : List Char) : Prop := ∀ c ∈ cs.head?, isStop c = true

-- ============================================================================
-- One lexeme
-- ============================================================================

theorem isStop_cases {c : Char} (h : isStop c = true) :
    c = ':' ∨ c = '@' ∨ c = '?' ∨ c = '{' ∨ c = '}' ∨ c = '\n' := by
  unfold isStop symbol at h
  split at h <;> simp_all

theorem continues_of_isStop {c : Char} (h : isStop c = true) (d : Char) :
    continues d c = false := by
  have hpart : isNamePart c = false ∧ c.isDigit = false := by
    rcases isStop_cases h with rfl | rfl | rfl | rfl | rfl | rfl <;> decide
  simp [continues, hpart.1, hpart.2]

theorem continues_head_of_stops {rest : List Char} (h : Stops rest) (d : Char) :
    ∀ c ∈ rest.head?, continues d c = false := fun c hc => continues_of_isStop (h c hc) d

theorem stops_cons {c : Char} (h : isStop c = true) (rest : List Char) : Stops (c :: rest) := by
  intro d hd
  obtain rfl := Option.some.inj hd
  exact h

theorem nameStart_lexeme {c : Char} (h : isNameStart c = true) (tail : List Char) :
    isSpace c = false ∧ c ≠ '#' ∧ (∀ d, continues c d = isNamePart d) ∧
      classify c tail = wordKind (String.ofList (c :: tail)) := by
  refine ⟨?_, ?_, fun d => by simp [continues, h], by rw [classify, if_pos h]; rfl⟩
  · rw [← Bool.not_eq_true]
    intro hspace
    simp only [isSpace, Bool.or_eq_true, beq_iff_eq] at hspace
    rcases hspace with (rfl | rfl) | rfl <;> exact absurd h (by decide)
  · rintro rfl
    exact absurd h (by decide)

theorem isNameStart_of_isDigit {c : Char} (h : c.isDigit = true) : isNameStart c = false := by
  have hle : c.toNat ≤ 57 := (Char.isDigit_iff_toNat.mp h).2
  -- letters and `_` stand behind the digits
  have hbehind : ∀ n : UInt32, 57 < n.toNat → ¬ n ≤ c.val := by
    intro n hn hnc
    have hnat : n.toNat ≤ c.toNat := UInt32.le_iff_toNat_le.mp hnc
    omega
  have hupper : c.isUpper = false := decide_eq_false fun hletter => hbehind 65 (by decide) hletter.1
  have hlower : c.isLower = false := by
    show (decide (97 ≤ c.val) && _) = false
    rw [decide_eq_false (hbehind 97 (by decide)), Bool.false_and]
  have hne : (c == '_') = false := by
    rw [beq_eq_false_iff_ne]
    rintro rfl
    exact absurd hle (by decide)
  show ((c.isUpper || c.isLower) || (c == '_')) = false
  rw [hupper, hlower, hne]
  rfl

theorem number_lexeme {c : Char} {tail : List Char}
    (h : c.isDigit = true ∨ (c = '-' ∧ tail ≠ [])) :
    isSpace c = false ∧ c ≠ '#' ∧ (∀ d, continues c d = d.isDigit) ∧
      classify c tail = .integer := by
  have hstart : isNameStart c = false := by
    rcases h with hdigit | ⟨rfl, -⟩
    · exact isNameStart_of_isDigit hdigit
    · decide
  refine ⟨?_, ?_, fun d => ?_, ?_⟩
  · rw [← Bool.not_eq_true]
    intro hspace
    simp only [isSpace, Bool.or_eq_true, beq_iff_eq] at hspace
    rcases hspace with (rfl | rfl) | rfl <;> simp at h
  · rintro rfl
    simp at h
  · rcases h with hdigit | ⟨rfl, -⟩
    · simp [continues, hstart, hdigit]
    · simp [continues, hstart]
  · rw [classify, if_neg (by simp [hstart]), if_pos]
    rcases h with hdigit | ⟨rfl, hne⟩
    · simp [hdigit]
    · simp [hne]

namespace Scans

variable {m : Mode} {rest : List Char} {ss : List Shape}

theorem nil (m : Mode) : Scans m [] [] := fun offset => by rw [scanFrom]; rfl

/-- A lexeme in front of characters that it does not go on with. -/
theorem lexeme {c : Char} {tail : List Char} (hspace : isSpace c = false) (hcomment : c ≠ '#')
    (htail : ∀ d ∈ tail, continues c d = true) (hrest : ∀ d ∈ rest.head?, continues c d = false)
    {kind : TokenKind} (hkind : m.view (classify c tail) = kind)
    (hvalue : ¬(m = .key ∧ kind = .colon))
    (h : Scans (m.after kind) rest ss) :
    Scans m (c :: tail ++ rest) ((kind, String.ofList (c :: tail)) :: ss) := by
  intro offset
  obtain ⟨htake, hdrop⟩ := takeWhile_append_of_head htail hrest
  rw [List.cons_append, scanFrom_lexeme offset (tail ++ rest) hspace hcomment
    (by rw [htake]; exact hkind) hvalue, htake, hdrop, List.map_cons, h]
  rfl

/-- A blank in front does not count. -/
theorem space (h : Scans m rest ss) : Scans m (' ' :: rest) ss := by
  intro offset
  rw [scanFrom_space offset rest (by decide), h]

/-- The `:` behind a key, and the value. -/
theorem value {v : List Char} (hv : ∀ c ∈ v, isValuePart c = true)
    (hrest : ∀ c ∈ rest.head?, isValuePart c = false) (h : Scans .separator rest ss) :
    Scans .key (':' :: (v ++ rest)) (symbolShape ':' :: (valueShapes v ++ ss)) := by
  intro offset
  obtain ⟨htake, hdrop⟩ := takeWhile_append_of_head hv hrest
  rw [scanFrom_value, htake, hdrop, List.map_cons, List.map_append, map_shape_ofValue, h]
  rfl

/-- A character that is a lexeme by itself. -/
theorem symbol {c : Char} (hc : isStop c = true) (hvalue : ¬(m = .key ∧ c = ':'))
    (h : Scans (m.after (Token.symbol c)) rest ss) :
    Scans m (c :: rest) (symbolShape c :: ss) := by
  have hlone : ∀ d, continues c d = false ∧ classify c [] = Token.symbol c := by
    rcases isStop_cases hc with rfl | rfl | rfl | rfl | rfl | rfl <;> exact fun d => ⟨rfl, rfl⟩
  have hview : m.view (classify c []) = Token.symbol c := by
    rw [(hlone c).2]
    rcases isStop_cases hc with rfl | rfl | rfl | rfl | rfl | rfl <;> cases m <;> rfl
  show Scans m (c :: ([] : List Char) ++ rest) _
  refine lexeme ?_ ?_ (by simp) (fun d _ => (hlone d).1) hview ?_ h
  · rcases isStop_cases hc with rfl | rfl | rfl | rfl | rfl | rfl <;> rfl
  · rcases isStop_cases hc with rfl | rfl | rfl | rfl | rfl | rfl <;> decide
  · rintro ⟨rfl, hcolon⟩
    rcases isStop_cases hc with rfl | rfl | rfl | rfl | rfl | rfl <;>
      simp_all [Token.symbol]

/-- A word in the place of a key. -/
theorem key {text : String} (hword : IsWord text) (hrest : Stops rest) (h : Scans .key rest ss) :
    Scans .key (text.toList ++ rest) ((.ident, text) :: ss) := by
  obtain ⟨c, tail, rfl, hstart, htail⟩ := hword
  obtain ⟨hspace, hcomment, hcontinues, hclass⟩ := nameStart_lexeme hstart tail
  have hview : Mode.key.view (classify c tail) = .ident := by
    rw [hclass, wordKind]
    split <;> rfl
  rw [String.toList_ofList]
  refine lexeme hspace hcomment (fun d hd => ?_) (continues_head_of_stops hrest c) hview (by simp) h
  rw [hcontinues]
  exact htail d hd

/-- A word outside of attribute lists. -/
theorem word {text : String} (hword : IsWord text) (hrest : Stops rest)
    (h : Scans .outside rest ss) :
    Scans .outside (text.toList ++ rest) ((wordKind text, text) :: ss) := by
  obtain ⟨c, tail, rfl, hstart, htail⟩ := hword
  obtain ⟨hspace, hcomment, hcontinues, hclass⟩ := nameStart_lexeme hstart tail
  have hview : Mode.outside.view (classify c tail) = wordKind (String.ofList (c :: tail)) := hclass
  have hafter : Mode.outside.after (wordKind (String.ofList (c :: tail))) = .outside := by
    rw [wordKind]
    split <;> rfl
  rw [String.toList_ofList]
  refine lexeme hspace hcomment (fun d hd => ?_) (continues_head_of_stops hrest c) hview (by simp) ?_
  · rw [hcontinues]
    exact htail d hd
  · rw [hafter]
    exact h

/-- A number outside of attribute lists. -/
theorem integer {text : String} (hnumber : IsNumber text) (hrest : Stops rest)
    (h : Scans .outside rest ss) :
    Scans .outside (text.toList ++ rest) ((.integer, text) :: ss) := by
  obtain ⟨c, tail, rfl, hstart, htail⟩ := hnumber
  obtain ⟨hspace, hcomment, hcontinues, hclass⟩ := number_lexeme hstart
  have hview : Mode.outside.view (classify c tail) = .integer := hclass
  rw [String.toList_ofList]
  refine lexeme hspace hcomment (fun d hd => ?_) (continues_head_of_stops hrest c) hview (by simp) h
  rw [hcontinues]
  exact htail d hd

end Scans

-- ============================================================================
-- Keywords and numbers
-- ============================================================================

theorem isWord_keyword (k : Keyword) : IsWord k.text := by
  cases k
  · exact ⟨'c', ['l', 'o', 'c', 'k'], rfl, by decide, List.all_eq_true.mp (by decide)⟩
  · exact ⟨'e', ['d', 'g', 'e'], rfl, by decide, List.all_eq_true.mp (by decide)⟩
  · exact ⟨'e', ['v', 'e', 'n', 't'], rfl, by decide, List.all_eq_true.mp (by decide)⟩
  · exact ⟨'i', ['n', 't'], rfl, by decide, List.all_eq_true.mp (by decide)⟩
  · exact ⟨'l', ['o', 'c', 'a', 't', 'i', 'o', 'n'], rfl, by decide, List.all_eq_true.mp (by decide)⟩
  · exact ⟨'p', ['r', 'o', 'c', 'e', 's', 's'], rfl, by decide, List.all_eq_true.mp (by decide)⟩
  · exact ⟨'s', ['y', 'n', 'c'], rfl, by decide, List.all_eq_true.mp (by decide)⟩
  · exact ⟨'s', ['y', 's', 't', 'e', 'm'], rfl, by decide, List.all_eq_true.mp (by decide)⟩

theorem wordKind_keyword (k : Keyword) : wordKind k.text = .keyword k := by
  cases k <;> decide

theorem wordKind_of_isName {text : String} (h : IsName text) : wordKind text = .ident := by
  rw [wordKind, h.2]

theorem isNumber_nat (n : Nat) : IsNumber (toString n) := by
  obtain ⟨c, cs, hdigits, hc, hcs⟩ := Numeral.exists_toDigits_eq_cons n
  refine ⟨c, cs, ?_, Or.inl hc, hcs⟩
  rw [Nat.toString_eq_ofList_toDigits, hdigits]

theorem isNumber_int (i : Int) : IsNumber (toString i) := by
  cases i with
  | ofNat n => exact isNumber_nat n
  | negSucc n =>
    refine ⟨'-', Nat.toDigits 10 (n + 1), ?_, Or.inr ⟨rfl, Nat.toDigits_ne_nil⟩, ?_⟩
    · rw [← String.toList_inj, Numeral.toList_toString_neg, String.toList_ofList]
    · intro d hd
      exact Numeral.isDigit_of_mem_toDigits hd

-- ============================================================================
-- Attribute lists
-- ============================================================================

/-- The tokens of attributes as they are printed. A value that is not the last has a blank behind
it, which the scanner takes for a part of it. -/
def entryShapes : List Attribute → List Shape
  | [] => []
  | [a] => (.ident, a.key) :: symbolShape ':' :: valueShapes a.value.toList
  | a :: b :: as =>
    (.ident, a.key) :: symbolShape ':' ::
      (valueShapes (a.value.toList ++ [' ']) ++ symbolShape ':' :: entryShapes (b :: as))

def Attributes.shapes (as : Attributes) : List Shape :=
  symbolShape '{' :: (entryShapes as.entries ++ [symbolShape '}'])

/-- A key is a word, and a value can be written as it is. -/
def Attribute.IsPrintable (a : Attribute) : Prop :=
  IsWord a.key ∧ IsRawValue a.value ∧ Text.trim a.value = a.value

theorem isValuePart_of_mem_concat {v : String} (h : IsRawValue v) :
    ∀ c ∈ v.toList ++ [' '], isValuePart c = true := by
  intro c hc
  rcases List.mem_append.mp hc with hc | hc
  · exact h c hc
  · rw [List.mem_singleton.mp hc]
    decide

theorem Scans.entries {as : List Attribute} (has : ∀ a ∈ as, a.IsPrintable) {rest : List Char}
    {ss : List Shape} (h : Scans .outside rest ss) :
    Scans .key ([' ', ':', ' '].intercalate (as.map fun a => a.text.toList) ++ '}' :: rest)
      (entryShapes as ++ symbolShape '}' :: ss) := by
  induction as using entryShapes.induct with
  | case1 => exact Scans.symbol (by decide) (by decide) h
  | case2 a =>
    obtain ⟨hkey, hvalue, -⟩ := has a List.mem_cons_self
    have htail : Scans .separator ('}' :: rest) (symbolShape '}' :: ss) :=
      Scans.symbol (by decide) (by decide) h
    have hend : ∀ c ∈ ('}' :: rest).head?, isValuePart c = false := by simp; decide
    have htext := Scans.key hkey (stops_cons (by decide) _) (Scans.value hvalue hend htail)
    simpa [entryShapes, Attribute.text] using htext
  | case3 a b as ih =>
    obtain ⟨hkey, hvalue, -⟩ := has a List.mem_cons_self
    have hmore := ih fun c hc => has c (List.mem_cons_of_mem a hc)
    -- the blank before the `:` goes to the value, the one behind it is skipped
    have htail := Scans.symbol (m := .separator) (c := ':') (by decide) (by decide) hmore.space
    have hend : ∀ c ∈ (':' :: ' ' ::
        ([' ', ':', ' '].intercalate ((b :: as).map fun a => a.text.toList) ++ '}' :: rest)).head?,
        isValuePart c = false := by simp; decide
    have htext := Scans.key hkey (stops_cons (by decide) _)
      (Scans.value (isValuePart_of_mem_concat hvalue) hend htail)
    simpa [entryShapes, Attribute.text] using htext

theorem Scans.attributes {as : Attributes} (has : ∀ a ∈ as.entries, a.IsPrintable)
    {rest : List Char} {ss : List Shape} (h : Scans .outside rest ss) :
    Scans .outside (as.text.toList ++ rest) (as.shapes ++ ss) := by
  have hopen := Scans.symbol (m := .outside) (c := '{') (by decide) (by decide) (h.entries has)
  simpa [Attributes.text, Attributes.shapes, Function.comp_def] using hopen

-- ============================================================================
-- Lines
-- ============================================================================

/-- A text is scanned as given tokens, outside of attribute lists and before a character that stops
it. -/
def Spells (text : String) (ss : List Shape) : Prop :=
  ∀ rest ts, Stops rest → Scans .outside rest ts → Scans .outside (text.toList ++ rest) (ss ++ ts)

theorem spells_name {name : String} (h : IsName name) : Spells name [(.ident, name)] := by
  intro rest ts hrest hts
  have hword := hts.word h.1 hrest
  rwa [wordKind_of_isName h] at hword

theorem spells_number {text : String} (h : IsNumber text) : Spells text [(.integer, text)] :=
  fun _ _ hrest hts => hts.integer h hrest

/-- The tokens of fields, each behind a `:`. -/
def fieldShapes (fields : List (List Shape)) : List Shape :=
  fields.flatMap fun ss => symbolShape ':' :: ss

theorem Scans.fields {fields : List String} {shapes : List (List Shape)}
    (hfields : List.Forall₂ Spells fields shapes) {rest : List Char} {ss : List Shape}
    (hrest : Stops rest) (h : Scans .outside rest ss) :
    Stops ((fields.flatMap fun f => ':' :: f.toList) ++ rest) ∧
      Scans .outside ((fields.flatMap fun f => ':' :: f.toList) ++ rest)
        (fieldShapes shapes ++ ss) := by
  induction hfields with
  | nil => exact ⟨hrest, h⟩
  | @cons field shape fields shapes hfield _ ih =>
    obtain ⟨hstops, hscans⟩ := ih
    have htext := Scans.symbol (m := .outside) (c := ':') (by decide) (by decide)
      (hfield _ _ hstops hscans)
    refine ⟨stops_cons (by decide) _, ?_⟩
    simpa [fieldShapes] using htext

/-- The tokens of a printed line. -/
def lineShapes (k : Keyword) (fields : List (List Shape)) (as : Attributes) : List Shape :=
  (.keyword k, k.text) :: (fieldShapes fields ++ as.shapes)

/-- **A printed line.** It is scanned as its keyword, its fields and its attributes. -/
theorem Scans.line (k : Keyword) {fields : List String} {shapes : List (List Shape)}
    (hfields : List.Forall₂ Spells fields shapes) {as : Attributes}
    (has : ∀ a ∈ as.entries, a.IsPrintable) {rest : List Char} {ss : List Shape}
    (h : Scans .outside rest ss) :
    Scans .outside
      ((k.text ++ String.join (fields.map (":" ++ ·)) ++ as.text ++ "\n").toList ++ rest)
      (lineShapes k shapes as ++ symbolShape '\n' :: ss) := by
  have hend := Scans.symbol (m := .outside) (c := '\n') (by decide) (by decide) h
  have hlist := hend.attributes has
  have hopen : Stops (as.text.toList ++ '\n' :: rest) := by
    simpa [Attributes.text] using stops_cons (by decide) _
  obtain ⟨hstops, hscans⟩ := Scans.fields hfields hopen hlist
  have hline := hscans.word (isWord_keyword k) hstops
  rw [wordKind_keyword] at hline
  have hchars : (k.text ++ String.join (fields.map (":" ++ ·)) ++ as.text ++ "\n").toList ++ rest =
      k.text.toList ++ ((fields.flatMap fun f => ':' :: f.toList) ++
        (as.text.toList ++ '\n' :: rest)) := by
    simp [List.flatMap_map]
  rw [hchars]
  simpa [lineShapes] using hline

end TimedNet
