/-
  TimedNet.Proofs.Text.Pieces

  Spans as pieces of a text. The index of a text tells the position behind any part that the text
  begins with: as many lines down as the part has newlines, and as many bytes along as there are
  behind the last of them (`position_take`). So the span of a range is that of a piece of the text
  (`IsSpan.isIn`), though offsets past the end stand for the end.
-/
import TimedNet.Proofs.Text.Lines
import TimedNet.Proofs.Text.Ranges

namespace TimedNet

open Text (newline)

/-- The position behind bytes: below the lines that they end, along the bytes of the last one. -/
def Position.behind (bs : List UInt8) : Position :=
  ⟨bs.count newline, (bs.reverse.takeWhile (· != newline)).length⟩

/-- The span of a piece of a text, from behind all that comes before it to behind the piece. -/
def Span.IsIn (bs : List UInt8) (s : Span) : Prop :=
  ∃ before piece after, bs = before ++ (piece ++ after) ∧
    s = ⟨.behind before, .behind (before ++ piece)⟩

/-- Bytes that have a newline are cut at the last one. -/
theorem exists_last_newline {bs : List UInt8} (h : newline ∈ bs) :
    ∃ above line, bs = above ++ newline :: line ∧ newline ∉ line := by
  obtain ⟨line, above, hsplit, hline⟩ := List.eq_append_cons_of_mem (List.mem_reverse.mpr h)
  refine ⟨above.reverse, line.reverse, ?_, fun hmem => hline (List.mem_reverse.mp hmem)⟩
  rw [← List.reverse_reverse bs, hsplit, List.reverse_append, List.reverse_cons,
    List.append_assoc, List.singleton_append]

section Line

variable {bs : List UInt8} (h : newline ∉ bs)

include h

theorem takeWhile_reverse_line (as : List UInt8) :
    (bs.reverse ++ as).takeWhile (· != newline) = bs.reverse ++ as.takeWhile (· != newline) := by
  refine List.takeWhile_append_of_pos fun b hb => ?_
  have hne : b ≠ newline := fun hnewline => h (hnewline ▸ List.mem_reverse.mp hb)
  exact bne_iff_ne.mpr hne

/-- The position behind bytes without a newline is on the first line. -/
theorem Position.behind_line : Position.behind bs = ⟨0, bs.length⟩ := by
  have htake := takeWhile_reverse_line h []
  rw [List.append_nil, List.takeWhile_nil, List.append_nil] at htake
  rw [Position.behind, htake, List.length_reverse, List.count_eq_zero_of_not_mem h]

/-- The position behind a newline and bytes without one is on the line that the newline begins. -/
theorem Position.behind_newline (as : List UInt8) :
    Position.behind (as ++ newline :: bs) = ⟨as.count newline + 1, bs.length⟩ := by
  have hline : (as ++ newline :: bs).count newline = as.count newline + 1 := by
    rw [List.count_append, List.count_cons_self, List.count_eq_zero_of_not_mem h]
  have hcolumn : (as ++ newline :: bs).reverse.takeWhile (· != newline) = bs.reverse := by
    rw [List.reverse_append, List.reverse_cons, List.append_assoc, takeWhile_reverse_line h,
      List.singleton_append, List.takeWhile_cons_of_neg (by simp), List.append_nil]
  rw [Position.behind, hline, hcolumn, List.length_reverse]

/-- An index without newlines has one line. -/
theorem LineIndex.position_line (offset : Nat) :
    (ofBytes bs).position offset = ⟨0, min offset bs.length⟩ := by
  have hstarts : (ofBytes bs).starts = [] := by
    rw [← List.length_eq_zero_iff]
    exact (length_startsFrom 0 bs).trans (List.count_eq_zero_of_not_mem h)
  rw [position, hstarts]
  rfl

end Line

namespace LineIndex

/-- The end of a text, by its last newline. -/
theorem position_length (bs : List UInt8) :
    (ofBytes bs).position bs.length = Position.behind bs := by
  by_cases hbs : newline ∈ bs
  · obtain ⟨above, line, rfl, hline⟩ := exists_last_newline hbs
    have hbelow := position_below above line line.length
    have hlength : (above ++ newline :: line).length = above.length + 1 + line.length := by
      rw [List.length_append, List.length_cons]
      omega
    rw [hlength, hbelow, position_line hline, Nat.min_self, Position.behind_newline hline]
    rfl
  · rw [position_line hbs, Nat.min_self, Position.behind_line hbs]

/-- **The position of an offset** is the one behind the bytes before it. -/
theorem position_take (bs : List UInt8) (offset : Nat) :
    (ofBytes bs).position offset = Position.behind (bs.take offset) := by
  have hclamped : (ofBytes bs).position offset = (ofBytes bs).position (bs.take offset).length := by
    have hsize : (ofBytes bs).size = bs.length := rfl
    rw [position, position, hsize, List.length_take]
    congr 1
    omega
  have happend := position_append (bs.take offset) (bs.drop offset) (Nat.le_refl _)
  rw [List.take_append_drop] at happend
  rw [hclamped, happend, position_length]

/-- **Spans of ranges** are those of pieces of the text. -/
theorem IsSpan.isIn {bs : List UInt8} {s : Span} (h : (ofBytes bs).IsSpan s) : s.IsIn bs := by
  obtain ⟨start, stop, hle, rfl⟩ := h
  have hpiece : bs.take stop = bs.take start ++ (bs.take stop).drop start := by
    have hstart : (bs.take stop).take start = bs.take start := by
      rw [List.take_take, Nat.min_eq_left hle]
    rw [← hstart, List.take_append_drop]
  refine ⟨bs.take start, (bs.take stop).drop start, bs.drop stop, ?_, ?_⟩
  · rw [← List.append_assoc, ← hpiece, List.take_append_drop]
  · rw [← hpiece, span, position_take, position_take]

end LineIndex

end TimedNet
