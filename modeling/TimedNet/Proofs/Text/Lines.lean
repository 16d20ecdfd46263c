/-
  TimedNet.Proofs.Text.Lines

  Positions in a text that is put together from two others with a newline between them. A place in
  the upper part keeps its position (`position_append`), one in the lower part moves down by the
  lines of the upper one (`position_below`). A newline byte stands for a newline and for nothing
  else, so a text has one line more than it has newlines.
-/
import Mathlib.Data.List.Basic
import TimedNet.Text.LineIndex

namespace TimedNet

-- ============================================================================
-- Newlines
-- ============================================================================

namespace Text

/-- The bytes of a character outside of ASCII are all greater than those of ASCII. -/
theorem lt_toNat_of_mem_utf8EncodeChar {c : Char} (hc : 127 < c.val.toNat) {b : UInt8}
    (h : b ∈ String.utf8EncodeChar c) : 127 < b.toNat := by
  have hofNat : ∀ n, b = UInt8.ofNat n → b.toNat = n % 256 := by
    rintro n rfl
    exact UInt8.toNat_ofNat'
  unfold String.utf8EncodeChar at h
  dsimp only at h
  rw [if_neg (by omega)] at h
  split at h
  · simp only [List.mem_cons, List.not_mem_nil, or_false] at h
    rcases h with h | h <;> (have hb := hofNat _ h; omega)
  · split at h
    · simp only [List.mem_cons, List.not_mem_nil, or_false] at h
      rcases h with h | h | h <;> (have hb := hofNat _ h; omega)
    · simp only [List.mem_cons, List.not_mem_nil, or_false] at h
      rcases h with h | h | h | h <;> (have hb := hofNat _ h; omega)

/-- The newline byte stands for a newline and for nothing else. -/
theorem newline_mem_utf8EncodeChar {c : Char} :
    newline ∈ String.utf8EncodeChar c ↔ c = '\n' := by
  constructor
  · intro h
    by_cases hc : 127 < c.val.toNat
    · have hlt := lt_toNat_of_mem_utf8EncodeChar hc h
      exact absurd hlt (by decide)
    · rw [String.utf8EncodeChar, if_pos (by omega), List.mem_singleton] at h
      have htoNat : newline.toNat = c.val.toNat % 256 := by
        rw [h]
        exact UInt8.toNat_ofNat'
      have hnewline : newline.toNat = 10 := rfl
      exact Char.ext (UInt32.toNat_inj.mp (show c.val.toNat = 10 by omega))
  · rintro rfl
    decide

/-- A text without newlines is one line. -/
theorem count_newline_eq_zero {cs : List Char} (h : '\n' ∉ cs) : (bytes cs).count newline = 0 := by
  rw [List.count_eq_zero, bytes, List.mem_flatMap]
  rintro ⟨c, hc, hmem⟩
  exact h (newline_mem_utf8EncodeChar.mp hmem ▸ hc)

/-- The bytes of two texts with a newline between them. -/
theorem bytes_newline (cs ds : List Char) :
    bytes (cs ++ '\n' :: ds) = bytes cs ++ newline :: bytes ds := by
  rw [bytes_append]
  rfl

end Text

-- ============================================================================
-- Starts of lines
-- ============================================================================

namespace LineIndex

open Text (newline)

theorem startsFrom_append (offset : Nat) (as bs : List UInt8) :
    startsFrom offset (as ++ bs) =
      startsFrom offset as ++ startsFrom (offset + as.length) bs := by
  induction as generalizing offset with
  | nil => rfl
  | cons a as ih =>
    have hlength : offset + 1 + as.length = offset + (a :: as).length := by
      rw [List.length_cons]
      omega
    rw [List.cons_append, startsFrom, startsFrom, ih, hlength]
    split <;> rfl

/-- The starts of lines move along with the bytes. -/
theorem startsFrom_add (k offset : Nat) (bs : List UInt8) :
    startsFrom (k + offset) bs = (startsFrom offset bs).map (k + ·) := by
  induction bs generalizing offset with
  | nil => rfl
  | cons b bs ih =>
    rw [startsFrom, startsFrom, Nat.add_assoc, ih]
    split <;> rfl

theorem length_startsFrom (offset : Nat) (bs : List UInt8) :
    (startsFrom offset bs).length = bs.count newline := by
  induction bs generalizing offset with
  | nil => rfl
  | cons b bs ih =>
    rw [startsFrom, List.count_cons]
    split
    · next hb => simp [ih, hb]
    · next hb => simp [ih, hb]

/-- A line starts behind a byte of the text. -/
theorem mem_startsFrom {offset start : Nat} {bs : List UInt8} (h : start ∈ startsFrom offset bs) :
    offset < start ∧ start ≤ offset + bs.length := by
  induction bs generalizing offset with
  | nil => exact absurd h (by simp [startsFrom])
  | cons b bs ih =>
    have hmore : start ∈ startsFrom (offset + 1) bs →
        offset < start ∧ start ≤ offset + (b :: bs).length := by
      intro hmem
      obtain ⟨hlt, hle⟩ := ih hmem
      rw [List.length_cons]
      omega
    rw [startsFrom] at h
    split at h
    · rcases List.mem_cons.mp h with rfl | h
      · rw [List.length_cons]
        omega
      · exact hmore h
    · exact hmore h

-- ============================================================================
-- Positions
-- ============================================================================

/-- A line that starts behind an offset does not matter for its position. -/
theorem positionFrom_append (line start : Nat) (starts : List Nat) {later : List Nat} {offset : Nat}
    (h : ∀ n ∈ later.head?, offset < n) :
    positionFrom line start (starts ++ later) offset = positionFrom line start starts offset := by
  induction starts generalizing line start with
  | nil =>
    cases later with
    | nil => rfl
    | cons n later =>
      have hlt : offset < n := h n rfl
      rw [List.nil_append, positionFrom, positionFrom, if_neg (by omega)]
  | cons m starts ih =>
    rw [List.cons_append, positionFrom, positionFrom]
    split
    · exact ih (line + 1) m
    · rfl

/-- Lines that start before an offset are counted. -/
theorem positionFrom_skip (line start : Nat) {starts : List Nat} {next : Nat} {later : List Nat}
    {offset : Nat} (hnext : next ≤ offset) (h : ∀ n ∈ starts, n ≤ offset) :
    positionFrom line start (starts ++ next :: later) offset =
      positionFrom (line + starts.length + 1) next later offset := by
  induction starts generalizing line start with
  | nil => rw [List.nil_append, positionFrom, if_pos hnext]; rfl
  | cons m starts ih =>
    obtain ⟨hm, hstarts⟩ := List.forall_mem_cons.mp h
    have hlength : line + 1 + starts.length + 1 = line + (m :: starts).length + 1 := by
      rw [List.length_cons]
      omega
    rw [List.cons_append, positionFrom, if_pos hm, ih (line + 1) m hstarts, hlength]

end LineIndex

/-- A text has one line more than it has newlines. -/
theorem lineCount_ofText (source : String) :
    (LineIndex.ofText source).lineCount = (Text.bytes source.toList).count Text.newline + 1 := by
  rw [← LineIndex.length_startsFrom 0]
  rfl

namespace Position

/-- The position as many lines further down. -/
def below (lines : Nat) (p : Position) : Position := ⟨lines + p.line, p.column⟩

end Position

namespace LineIndex

open Text (newline)

/-- Lines and offsets may be counted from elsewhere. -/
theorem positionFrom_add (lines k line start : Nat) (starts : List Nat) (offset : Nat) :
    positionFrom (lines + line) (k + start) (starts.map (k + ·)) (k + offset) =
      (positionFrom line start starts offset).below lines := by
  induction starts generalizing line start with
  | nil =>
    show (⟨lines + line, k + offset - (k + start)⟩ : Position) = ⟨lines + line, offset - start⟩
    rw [Nat.add_sub_add_left]
  | cons n starts ih =>
    rw [List.map_cons, positionFrom, positionFrom]
    by_cases hn : n ≤ offset
    · rw [if_pos (by omega), if_pos hn, Nat.add_assoc]
      exact ih (line + 1) n
    · rw [if_neg (by omega), if_neg hn]
      show (⟨lines + line, k + offset - (k + start)⟩ : Position) = ⟨lines + line, offset - start⟩
      rw [Nat.add_sub_add_left]

theorem line_positionFrom_le (line start : Nat) (starts : List Nat) (offset : Nat) :
    (positionFrom line start starts offset).line ≤ line + starts.length := by
  induction starts generalizing line start with
  | nil => exact Nat.le_refl line
  | cons n starts ih =>
    rw [positionFrom]
    split
    · have hle := ih (line + 1) n
      rw [List.length_cons]
      omega
    · exact Nat.le_add_right line _

/-- No position is on a line behind the last. -/
theorem line_position_le (bs : List UInt8) (offset : Nat) :
    ((ofBytes bs).position offset).line ≤ bs.count newline := by
  have hle := line_positionFrom_le 0 0 (startsFrom 0 bs) (min offset bs.length)
  rw [length_startsFrom, Nat.zero_add] at hle
  exact hle

/-- A place in a text keeps its position when the text goes on behind it. -/
theorem position_append (as bs : List UInt8) {offset : Nat} (h : offset ≤ as.length) :
    (ofBytes (as ++ bs)).position offset = (ofBytes as).position offset := by
  have hlater : ∀ n ∈ (startsFrom (0 + as.length) bs).head?, offset < n := by
    intro n hn
    have hmem := mem_startsFrom (List.mem_of_head? hn)
    omega
  have hmin : min offset (as ++ bs).length = offset := by
    rw [List.length_append]
    omega
  show positionFrom 0 0 (startsFrom 0 (as ++ bs)) (min offset (as ++ bs).length) =
    positionFrom 0 0 (startsFrom 0 as) (min offset as.length)
  rw [hmin, Nat.min_eq_left h, startsFrom_append]
  exact positionFrom_append 0 0 _ hlater

/-- A place moves down with its text when lines are put above it. -/
theorem position_below (as bs : List UInt8) (offset : Nat) :
    (ofBytes (as ++ newline :: bs)).position (as.length + 1 + offset) =
      ((ofBytes bs).position offset).below (as.count newline + 1) := by
  have hstarts : startsFrom 0 (as ++ newline :: bs) =
      startsFrom 0 as ++ (as.length + 1) :: (startsFrom 0 bs).map (as.length + 1 + ·) := by
    rw [startsFrom_append, startsFrom, if_pos rfl, Nat.zero_add]
    congr 2
    exact startsFrom_add (as.length + 1) 0 bs
  have hmin : min (as.length + 1 + offset) (as ++ newline :: bs).length =
      as.length + 1 + min offset bs.length := by
    rw [List.length_append, List.length_cons]
    omega
  have hearlier : ∀ n ∈ startsFrom 0 as, n ≤ as.length + 1 + min offset bs.length := by
    intro n hn
    have hmem := mem_startsFrom hn
    omega
  show positionFrom 0 0 (startsFrom 0 (as ++ newline :: bs))
      (min (as.length + 1 + offset) (as ++ newline :: bs).length) =
    (positionFrom 0 0 (startsFrom 0 bs) (min offset bs.length)).below (as.count newline + 1)
  rw [hstarts, hmin, positionFrom_skip 0 0 (by omega) hearlier, length_startsFrom, Nat.zero_add]
  exact positionFrom_add (as.count newline + 1) (as.length + 1) 0 0 _ _

end LineIndex

end TimedNet
