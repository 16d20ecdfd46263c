/-
  TimedNet.Proofs.Text.LineStarts

  The line of an offset by a search of the table of line starts. The table begins with 0 and goes up
  strictly (`lineStarts_pairwise`), so one line only starts at or before an offset with the next one
  behind it (`line_unique`). Whatever a binary search may answer by its contract (`Search.Answers`),
  the line is read off it without an underflow (`position?_of_answers`); `Search.bisect` is such a
  search. With what the table holds, the index of a text is exact and can be inverted
  (`exact_and_invertible`).
-/
import TimedNet.Proofs.Text.Pieces
import TimedNet.Proofs.Text.Slices

namespace TimedNet

open Text (newline)

-- ============================================================================
-- Searches
-- ============================================================================

namespace Search

/-- What a search of a strictly increasing table for a key may answer: where the key is, or else
where it would go, which is in front of all greater entries and behind all smaller ones. -/
def Answers (table : List Nat) (key : Nat) : Except Nat Nat → Prop
  | .ok k => table[k]? = some key
  | .error k => k ≤ table.length ∧
    ∀ j x, table[j]? = some x → (j < k → x < key) ∧ (k ≤ j → key < x)

/-- Where a key may be at the latest, among `size` entries from `base` on. Each turn halves the
number of entries. -/
def narrow (table : List Nat) (key base size : Nat) : Nat :=
  if size ≤ 1 then base
  else if key < table.getD (base + size / 2) 0 then narrow table key base (size - size / 2)
  else narrow table key (base + size / 2) (size - size / 2)
termination_by size

/-- A binary search. -/
def bisect (table : List Nat) (key : Nat) : Except Nat Nat :=
  let base := narrow table key 0 table.length
  match table[base]? with
  | none => .error 0
  | some x => if x = key then .ok base else if x < key then .error (base + 1) else .error base

/-- All entries behind the `size` ones from `base` on are too great, and unless `base` is the first
entry it is not. -/
structure Brackets (table : List Nat) (key base size : Nat) : Prop where
  pos : 0 < size
  bound : base + size ≤ table.length
  behind : ∀ j x, table[j]? = some x → base + size ≤ j → key < x
  before : base = 0 ∨ ∃ x, table[base]? = some x ∧ x ≤ key

section Sorted

variable {table : List Nat} (hsorted : table.Pairwise (· < ·)) {key : Nat}

include hsorted

theorem lt_of_lt {j k x y : Nat} (hx : table[j]? = some x) (hy : table[k]? = some y)
    (hlt : j < k) : x < y := by
  obtain ⟨hj, rfl⟩ := List.getElem?_eq_some_iff.mp hx
  obtain ⟨hk, rfl⟩ := List.getElem?_eq_some_iff.mp hy
  exact List.pairwise_iff_getElem.mp hsorted j k hj hk hlt

theorem le_of_le {j k x y : Nat} (hx : table[j]? = some x) (hy : table[k]? = some y)
    (hle : j ≤ k) : x ≤ y := by
  rcases Nat.lt_or_eq_of_le hle with hlt | rfl
  · exact Nat.le_of_lt (lt_of_lt hsorted hx hy hlt)
  · exact Nat.le_of_eq (Option.some.inj (hx.symm.trans hy))

/-- By the recursion of the search, with the brackets as its invariant. -/
theorem brackets_narrow {base size : Nat} (h : Brackets table key base size) :
    Brackets table key (narrow table key base size) 1 := by
  fun_induction narrow table key base size with
  | case1 base size hsize =>
    obtain rfl : size = 1 := Nat.le_antisymm hsize h.pos
    exact h
  | case2 base size hsize hlt ih =>
    have hmid : base + size / 2 < table.length := by have := h.bound; omega
    have hx := List.getElem?_eq_getElem hmid
    rw [List.getD_eq_getElem?_getD, hx, Option.getD_some] at hlt
    refine ih ⟨by omega, by omega, fun j y hy hj => ?_, h.before⟩
    exact Nat.lt_of_lt_of_le hlt (le_of_le hsorted hx hy (by omega))
  | case3 base size hsize hle ih =>
    have hmid : base + size / 2 < table.length := by have := h.bound; omega
    have hx := List.getElem?_eq_getElem hmid
    rw [List.getD_eq_getElem?_getD, hx, Option.getD_some] at hle
    refine ih ⟨by omega, by have := h.bound; omega, fun j y hy hj => ?_, Or.inr ⟨_, hx, ?_⟩⟩
    · exact h.behind j y hy (by omega)
    · exact Nat.le_of_not_lt hle

/-- A single entry that is left decides. -/
theorem answers_of_brackets {base x : Nat} (h : Brackets table key base 1)
    (hx : table[base]? = some x) :
    Answers table key
      (if x = key then .ok base else if x < key then .error (base + 1) else .error base) := by
  split
  · next heq => exact hx.trans (congrArg some heq)
  · split
    · next hlt =>
      refine ⟨h.bound, fun j y hy => ⟨fun hj => ?_, h.behind j y hy⟩⟩
      exact Nat.lt_of_le_of_lt (le_of_le hsorted hy hx (Nat.le_of_lt_succ hj)) hlt
    · next hne hnlt =>
      -- An entry that is too great is the first of all.
      have hgreater : key < x := by omega
      obtain rfl : base = 0 := by
        rcases h.before with h0 | ⟨x', hx', hle⟩
        · exact h0
        · obtain rfl := Option.some.inj (hx.symm.trans hx')
          omega
      refine ⟨Nat.zero_le _, fun j y hy => ⟨fun hj => absurd hj (Nat.not_lt_zero j), fun _ => ?_⟩⟩
      exact Nat.lt_of_lt_of_le hgreater (le_of_le hsorted hx hy (Nat.zero_le j))

/-- **Bisection searches.** It answers where a key is in a sorted table, or where it would be. -/
theorem answers_bisect : Answers table key (bisect table key) := by
  rcases Nat.eq_zero_or_pos table.length with hnil | hpos
  · obtain rfl := List.length_eq_zero_iff.mp hnil
    exact ⟨Nat.le_refl 0, fun j x hx => absurd hx (by simp)⟩
  have hall : Brackets table key 0 table.length := by
    refine ⟨hpos, by omega, fun j x hx hj => ?_, Or.inl rfl⟩
    obtain ⟨hlt, -⟩ := List.getElem?_eq_some_iff.mp hx
    omega
  have hone := brackets_narrow hsorted hall
  have hx := List.getElem?_eq_getElem (Nat.lt_of_succ_le hone.bound)
  simp only [bisect, hx]
  exact answers_of_brackets hsorted hone hx

end Sorted

end Search

namespace LineIndex

-- ============================================================================
-- The table
-- ============================================================================

/-- Where the lines start, the first one with the text. -/
def lineStarts (i : LineIndex) : List Nat := 0 :: i.starts

/-- Each line starts behind the start of the one before it. -/
theorem lineStarts_pairwise (bs : List UInt8) : (ofBytes bs).lineStarts.Pairwise (· < ·) := by
  suffices h : ∀ offset, (startsFrom offset bs).Pairwise (· < ·) from
    List.pairwise_cons.mpr ⟨fun start hstart => (mem_startsFrom hstart).1, h 0⟩
  induction bs with
  | nil => exact fun _ => .nil
  | cons b bs ih =>
    intro offset
    rw [startsFrom]
    split
    · exact List.pairwise_cons.mpr ⟨fun start hstart => (mem_startsFrom hstart).1, ih _⟩
    · exact ih _

/-- No line starts behind the end of the text. -/
theorem le_size_of_mem_lineStarts {bs : List UInt8} {start : Nat}
    (h : start ∈ (ofBytes bs).lineStarts) : start ≤ bs.length := by
  rcases List.mem_cons.mp h with rfl | h
  · exact Nat.zero_le _
  · have hle := (mem_startsFrom h).2
    omega

-- ============================================================================
-- Lines by a search
-- ============================================================================

/-- The line that a search found, or the one before the place that it told instead, if there is one
before it. -/
def line? : Except Nat Nat → Option Nat
  | .ok line => some line
  | .error next => if 1 ≤ next then some (next - 1) else none

/-- The position of an offset by the answer of a search of the table, if there is nothing wrong with
it: if the line is one of the table and does not start behind the offset. -/
def position? (i : LineIndex) (offset : Nat) (answer : Except Nat Nat) : Option Position := do
  let line ← line? answer
  let start ← i.lineStarts[line]?
  if start ≤ min offset i.size then some ⟨line, min offset i.size - start⟩ else none

/-- One line only starts at or before an offset, with the next line behind it. -/
theorem line_unique {table : List Nat} (hsorted : table.Pairwise (· < ·)) {key j k x y : Nat}
    (hx : table[j]? = some x) (hxle : x ≤ key)
    (hxnext : ∀ next, table[j + 1]? = some next → key < next)
    (hy : table[k]? = some y) (hyle : y ≤ key)
    (hynext : ∀ next, table[k + 1]? = some next → key < next) : j = k := by
  have hbetween : ∀ {j k x y : Nat}, x ≤ key → table[k]? = some y → y ≤ key →
      (∀ next, table[j + 1]? = some next → key < next) → ¬ j < k := by
    intro j k x y _ hy hyle hnext hlt
    obtain ⟨hk, -⟩ := List.getElem?_eq_some_iff.mp hy
    have hget := List.getElem?_eq_getElem (show j + 1 < table.length by omega)
    have hkey := hnext _ hget
    have hle := Search.le_of_le hsorted hget hy hlt
    omega
  rcases Nat.lt_trichotomy j k with hlt | heq | hgt
  · exact absurd hlt (hbetween hxle hy hyle hxnext)
  · exact heq
  · exact absurd hgt (hbetween hyle hx hxle hynext)

/-- **Nothing underflows.** Whatever a search of the table answers, the position is read off it. -/
theorem position?_of_answers {bs : List UInt8} {offset : Nat} {answer : Except Nat Nat}
    (h : Search.Answers (ofBytes bs).lineStarts (min offset bs.length) answer) :
    (ofBytes bs).position? offset answer = some ((ofBytes bs).position offset) := by
  have hsorted := lineStarts_pairwise bs
  -- The line that the answer tells starts in time, and the next one does not.
  obtain ⟨line, start, hline, hstart, hle, hnext⟩ : ∃ line start, line? answer = some line ∧
      (ofBytes bs).lineStarts[line]? = some start ∧ start ≤ min offset bs.length ∧
      ∀ next, (ofBytes bs).lineStarts[line + 1]? = some next → min offset bs.length < next := by
    cases answer with
    | ok line =>
      exact ⟨line, _, rfl, h, Nat.le_refl _,
        fun next hnext => Search.lt_of_lt hsorted h hnext (Nat.lt_succ_self line)⟩
    | error k =>
      obtain ⟨hlength, hsides⟩ := h
      cases k with
      | zero =>
        -- The first line starts with the text, so no key goes in front of it.
        exact absurd ((hsides 0 0 rfl).2 (Nat.le_refl 0)) (Nat.not_lt_zero _)
      | succ line =>
        have hstart := List.getElem?_eq_getElem (show line < (ofBytes bs).lineStarts.length from hlength)
        exact ⟨line, _, rfl, hstart, Nat.le_of_lt ((hsides line _ hstart).1 (Nat.lt_succ_self line)),
          fun next hnext => (hsides (line + 1) next hnext).2 (Nat.le_refl _)⟩
  obtain ⟨start', hstart', hcolumn, hnext'⟩ := (ofBytes bs).position_exact offset
  obtain rfl : line = ((ofBytes bs).position offset).line :=
    line_unique hsorted hstart hle hnext hstart' (hcolumn ▸ Nat.le_add_right _ _) hnext'
  obtain rfl : start = start' := Option.some.inj (hstart.symm.trans hstart')
  have hposition : (⟨((ofBytes bs).position offset).line, min offset (ofBytes bs).size - start⟩ :
      Position) = (ofBytes bs).position offset := by
    rw [← hcolumn, Nat.add_sub_cancel_left]
  rw [position?, hline, Option.bind_eq_bind, Option.bind_some, hstart, Option.bind_some,
    if_pos (show start ≤ min offset (ofBytes bs).size from hle), hposition]

-- ============================================================================
-- Exactness
-- ============================================================================

/-- Where the last line of bytes starts: right behind their last newline, or with them. -/
structure StartsLastLine (bs : List UInt8) (start : Nat) : Prop where
  le : start ≤ bs.length
  behind : start = 0 ∨ ∃ k, start = k + 1 ∧ bs[k]? = some newline
  rest : newline ∉ bs.drop start

/-- Bytes count their last line from its start. -/
theorem startsLastLine_of_behind {bs : List UInt8} {start : Nat}
    (h : start + (Position.behind bs).column = bs.length) : StartsLastLine bs start := by
  by_cases hbs : newline ∈ bs
  · obtain ⟨above, line, rfl, hline⟩ := exists_last_newline hbs
    rw [Position.behind_newline hline, List.length_append, List.length_cons] at h
    obtain rfl : start = above.length + 1 := by
      have hcolumn : start + line.length = above.length + (line.length + 1) := h
      omega
    refine ⟨by simp, Or.inr ⟨_, rfl, ?_⟩, ?_⟩
    · rw [List.getElem?_append_right (Nat.le_refl _), Nat.sub_self, List.getElem?_cons_zero]
    · rwa [List.drop_append, List.drop_eq_nil_of_le (Nat.le_succ _), Nat.add_sub_cancel_left]
  · rw [Position.behind_line hbs] at h
    obtain rfl : start = 0 := by
      have hcolumn : start + bs.length = bs.length := h
      omega
    exact ⟨Nat.zero_le _, Or.inl rfl, hbs⟩

/-- Two positions of a text are as far apart as their offsets. -/
theorem position_strictMono (i : LineIndex) {o o' : Nat} (h : o < o') (h' : o' ≤ i.size) :
    i.position o < i.position o' := by
  rw [Position.lt_iff_not_le]
  intro hle
  have heq := Position.le_antisymm (i.position_mono (Nat.le_of_lt h)) hle
  have hoffset := i.offset?_position o
  rw [heq, offset?_position, Option.some_inj] at hoffset
  omega

/-- Offsets past the end stand for the end. -/
theorem position_of_size_le (i : LineIndex) {offset : Nat} (h : i.size ≤ offset) :
    i.position offset = i.position i.size := by
  rw [position, position, Nat.min_eq_right h, Nat.min_self]

/-- The position of an offset, by the bytes before it and by the table. -/
theorem position_counts (bs : List UInt8) (offset : Nat) :
    let p := (ofBytes bs).position offset
    p.line = (bs.take offset).count newline ∧
      ∃ start, (ofBytes bs).lineStarts[p.line]? = some start ∧
        start + p.column = min offset bs.length ∧ StartsLastLine (bs.take offset) start := by
  obtain ⟨start, hstart, hcolumn, -⟩ := (ofBytes bs).position_exact offset
  intro p
  have htake : p = Position.behind (bs.take offset) := position_take bs offset
  refine ⟨congrArg Position.line htake, start, hstart, hcolumn, startsLastLine_of_behind ?_⟩
  rw [← htake, List.length_take]
  exact hcolumn

/-- An index that is exact for the bytes of a text, and can be inverted. -/
structure IsExact (i : LineIndex) (bs : List UInt8) : Prop where
  /-- The text has one line more than newlines. -/
  lineCount : i.lineCount = bs.count newline + 1
  /-- The line of an offset is the number of newlines before it, or in the text if it is past the
  end. -/
  line : ∀ offset, (i.position offset).line = (bs.take offset).count newline
  /-- The column is the distance from where the last line of the bytes before it starts, which is
  what the table says for the line. -/
  column : ∀ offset, ∃ start, i.lineStarts[(i.position offset).line]? = some start ∧
    start + (i.position offset).column = min offset bs.length ∧
    StartsLastLine (bs.take offset) start
  inverse : ∀ offset, i.offset? (i.position offset) = some (min offset bs.length)
  /-- Positions go up strictly up to the end of the text. -/
  strictMono : ∀ o o', o < o' → o' ≤ bs.length → i.position o < i.position o'
  /-- All offsets past the end of the text have the position of the end. -/
  constant : ∀ offset, bs.length ≤ offset → i.position offset = i.position bs.length
  sorted : i.lineStarts.Pairwise (· < ·)
  within : ∀ start ∈ i.lineStarts, start ≤ bs.length
  /-- Whatever a search of the table answers, the position is read off it, and nothing is taken from
  less. -/
  search : ∀ offset answer, Search.Answers i.lineStarts (min offset bs.length) answer →
    i.position? offset answer = some (i.position offset)
  /-- Bisection is such a search. -/
  bisect : ∀ key, Search.Answers i.lineStarts key (Search.bisect i.lineStarts key)

/-- **The index of a text is exact, and can be inverted.** -/
theorem exact_and_invertible (source : String) :
    (ofText source).IsExact (Text.bytes source.toList) where
  lineCount := lineCount_ofText source
  line offset := (position_counts _ offset).1
  column offset := (position_counts _ offset).2
  inverse offset := (ofText source).offset?_position offset
  strictMono _ _ := (ofText source).position_strictMono
  constant _ := (ofText source).position_of_size_le
  sorted := lineStarts_pairwise _
  within _ := le_size_of_mem_lineStarts
  search _ _ := position?_of_answers
  bisect _ := Search.answers_bisect (lineStarts_pairwise _)

/-- On a newline, at the start of an empty line and past the end. -/
example :
    let i := ofText "ab\n\nc"
    [2, 3, 9].map i.position = [⟨0, 2⟩, ⟨1, 0⟩, ⟨2, 1⟩] ∧
      [2, 3, 5].map (Search.bisect i.lineStarts) = [.error 1, .ok 1, .error 3] := by
  decide +kernel

end LineIndex

end TimedNet
