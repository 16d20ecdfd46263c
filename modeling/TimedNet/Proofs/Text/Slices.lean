/-
  TimedNet.Proofs.Text.Slices

  From positions back to bytes, and from bytes back to text. The offset of a position is as many
  bytes behind the start of its line as its column says, which takes back what the index of a text
  does (`offset?_position`). A slice of a text is what stands between two offsets, if a character
  begins at either (`slice?_eq_some_iff`); so the span of a piece of a text slices back to that
  piece (`textIn?_of_piece`).
-/
import TimedNet.Proofs.Text.Ranges

namespace TimedNet

-- ============================================================================
-- Offsets of positions
-- ============================================================================

namespace LineIndex

/-- The offset of a position: its column, counted from the start of its line. -/
def offset? (i : LineIndex) (p : Position) : Option Nat :=
  (0 :: i.starts)[p.line]?.map (· + p.column)

/-- The offset of the position of an offset, or of the end of the text if it is behind that. -/
theorem offset?_position (i : LineIndex) (offset : Nat) :
    i.offset? (i.position offset) = some (min offset i.size) := by
  obtain ⟨start, hstart, hcolumn, -⟩ := i.position_exact offset
  rw [offset?, hstart, Option.map_some, hcolumn]

/-- A text is as long as its index says. -/
theorem size_ofText (source : String) : (ofText source).size = source.utf8ByteSize := by
  rw [← Text.width_toList, ← Text.length_bytes]
  rfl

end LineIndex

-- ============================================================================
-- Slices of texts
-- ============================================================================

namespace Text

/-- Only no characters take no room. -/
theorem width_eq_zero_iff {cs : List Char} : width cs = 0 ↔ cs = [] := by
  cases cs with
  | nil => exact iff_of_true rfl rfl
  | cons c cs =>
    refine iff_of_false ?_ (by simp)
    rw [width_cons]
    exact Nat.ne_of_gt (Nat.add_pos_left c.utf8Size_pos _)

/-- Cuts characters behind the first `n` bytes, if a character ends there. -/
def cut? : List Char → Nat → Option (List Char × List Char)
  | cs, 0 => some ([], cs)
  | [], _ + 1 => none
  | c :: cs, n + 1 =>
    if c.utf8Size ≤ n + 1 then (cut? cs (n + 1 - c.utf8Size)).map fun p => (c :: p.1, p.2) else none

theorem cut?_eq_some_iff {cs as bs : List Char} {n : Nat} :
    cut? cs n = some (as, bs) ↔ cs = as ++ bs ∧ n = width as := by
  induction cs, n using cut?.induct generalizing as with
  | case1 cs =>
    rw [cut?]
    constructor
    · intro h
      obtain ⟨rfl, rfl⟩ := Prod.mk.inj (Option.some.inj h)
      exact ⟨rfl, rfl⟩
    · rintro ⟨rfl, hwidth⟩
      obtain rfl := width_eq_zero_iff.mp hwidth.symm
      rfl
  | case2 n =>
    rw [cut?]
    refine iff_of_false (by simp) ?_
    rintro ⟨hnil, hwidth⟩
    obtain ⟨rfl, -⟩ := List.append_eq_nil_iff.mp hnil.symm
    exact absurd hwidth (by simp)
  | case3 c cs n hle ih =>
    rw [cut?, if_pos hle, Option.map_eq_some_iff]
    constructor
    · rintro ⟨⟨as', bs'⟩, hcut, hpair⟩
      obtain ⟨rfl, rfl⟩ := Prod.mk.inj hpair
      obtain ⟨rfl, hwidth⟩ := ih.mp hcut
      have hrest : n + 1 - c.utf8Size = width as' := hwidth
      refine ⟨rfl, ?_⟩
      show n + 1 = width (c :: as')
      rw [width_cons]
      omega
    · rintro ⟨hsplit, hwidth⟩
      cases as with
      | nil => exact absurd hwidth (by simp)
      | cons c' as =>
        obtain ⟨rfl, rfl⟩ := List.cons.inj hsplit
        rw [width_cons] at hwidth
        exact ⟨(as, bs), ih.mpr ⟨rfl, by omega⟩, rfl⟩
  | case4 c cs n hgt =>
    rw [cut?, if_neg hgt]
    refine iff_of_false (by simp) ?_
    rintro ⟨hsplit, hwidth⟩
    cases as with
    | nil => exact absurd hwidth (by simp)
    | cons c' as =>
      obtain ⟨rfl, -⟩ := List.cons.inj hsplit
      rw [width_cons] at hwidth
      omega

/-- The text between two offsets, if a character begins at either or the text ends there. -/
def slice? (source : String) (start stop : Nat) : Option String :=
  if start ≤ stop then do
    let front ← cut? source.toList start
    let piece ← cut? front.2 (stop - start)
    return String.ofList piece.1
  else none

theorem slice?_eq_some_iff {source text : String} {start stop : Nat} :
    slice? source start stop = some text ↔ ∃ pre post : String, source = pre ++ text ++ post ∧
      start = pre.utf8ByteSize ∧ stop = pre.utf8ByteSize + text.utf8ByteSize := by
  rw [slice?]
  constructor
  · intro h
    split at h
    · next hle =>
      obtain ⟨⟨as, left⟩, hfront, h⟩ := Option.bind_eq_some_iff.mp h
      obtain ⟨⟨bs, cs⟩, hpiece, h⟩ := Option.bind_eq_some_iff.mp h
      obtain ⟨hsource, hstart⟩ := cut?_eq_some_iff.mp hfront
      obtain ⟨hleft, hstop⟩ := cut?_eq_some_iff.mp hpiece
      obtain rfl : String.ofList bs = text := Option.some.inj h
      refine ⟨String.ofList as, String.ofList cs, ?_, ?_, ?_⟩
      · rw [← String.toList_inj, hsource]
        simpa using hleft
      · rw [← width_toList, String.toList_ofList, hstart]
      · rw [← width_toList, ← width_toList, String.toList_ofList, String.toList_ofList, ← hstart,
          ← hstop]
        omega
    · exact absurd h (by simp)
  · rintro ⟨pre, post, rfl, rfl, rfl⟩
    have hfront : cut? (pre ++ text ++ post).toList pre.utf8ByteSize =
        some (pre.toList, text.toList ++ post.toList) :=
      cut?_eq_some_iff.mpr ⟨by simp, (width_toList pre).symm⟩
    have hpiece : cut? (text.toList ++ post.toList) text.utf8ByteSize =
        some (text.toList, post.toList) :=
      cut?_eq_some_iff.mpr ⟨rfl, (width_toList text).symm⟩
    rw [if_pos (Nat.le_add_right _ _), Nat.add_sub_cancel_left, hfront, Option.bind_eq_bind,
      Option.bind_some, hpiece]
    simp

end Text

-- ============================================================================
-- Spans
-- ============================================================================

/-- The text that a span covers, if it stands between whole characters. -/
def Span.textIn? (s : Span) (source : String) : Option String := do
  let start ← (LineIndex.ofText source).offset? s.start
  let stop ← (LineIndex.ofText source).offset? s.stop
  Text.slice? source start stop

/-- A span slices back to the range that it was made for. -/
theorem LineIndex.textIn?_span {source : String} {start stop : Nat} (hle : start ≤ stop)
    (hstop : stop ≤ source.utf8ByteSize) :
    ((LineIndex.ofText source).span start stop).textIn? source =
      Text.slice? source start stop := by
  rw [Span.textIn?, LineIndex.span, LineIndex.offset?_position, LineIndex.offset?_position,
    LineIndex.size_ofText, Nat.min_eq_left hstop, Nat.min_eq_left (Nat.le_trans hle hstop)]
  rfl

/-- **Spans slice back.** The span of a piece of a text slices back to that piece. -/
theorem LineIndex.textIn?_of_piece {source pre text post : String}
    (hsource : source = pre ++ text ++ post) {start stop : Nat} (hstart : start = pre.utf8ByteSize)
    (hstop : stop = start + text.utf8ByteSize) :
    ((LineIndex.ofText source).span start stop).textIn? source = some text := by
  have hsize : source.utf8ByteSize =
      pre.utf8ByteSize + text.utf8ByteSize + post.utf8ByteSize := by
    rw [hsource, String.utf8ByteSize_append, String.utf8ByteSize_append]
  rw [LineIndex.textIn?_span (by omega) (by omega)]
  exact Text.slice?_eq_some_iff.mpr ⟨pre, post, hsource, hstart, hstart ▸ hstop⟩

/-- Only the span of an empty range is empty. -/
theorem LineIndex.isEmpty_span_iff {source : String} {start stop : Nat}
    (hstart : start ≤ source.utf8ByteSize) (hstop : stop ≤ source.utf8ByteSize) :
    ((LineIndex.ofText source).span start stop).isEmpty = true ↔ start = stop := by
  rw [Span.isEmpty_iff]
  constructor
  · intro h
    have hoffset := (LineIndex.ofText source).offset?_position start
    have hsame : (LineIndex.ofText source).position start =
      (LineIndex.ofText source).position stop := h
    rw [hsame, LineIndex.offset?_position, Option.some_inj, LineIndex.size_ofText] at hoffset
    omega
  · rintro rfl
    rfl

end TimedNet
