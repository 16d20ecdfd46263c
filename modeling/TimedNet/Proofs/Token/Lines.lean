/-
  TimedNet.Proofs.Token.Lines

  Tokens and words of a text, line by line. No lexeme goes on over a newline, and behind one the
  scanner stands outside of attribute lists again; so the tokens of two texts with a newline between
  them are those of both (`scanFrom_newline`). The words of the lower text are further down, and
  otherwise the same (`wordsOf_newline`).
-/
import TimedNet.Proofs.Text.Lines
import TimedNet.Proofs.Token.Lexical

namespace TimedNet

-- ============================================================================
-- Runs of characters that end at a newline
-- ============================================================================

theorem takeWhile_append_stop {α : Type} {p : α → Bool} {x : α} (hx : p x = false)
    (xs ys : List α) :
    (xs ++ x :: ys).takeWhile p = xs.takeWhile p := by
  induction xs with
  | nil => simp [hx]
  | cons z xs ih => by_cases hz : p z = true <;> simp [hz, ih]

theorem dropWhile_append_stop {α : Type} {p : α → Bool} {x : α} (hx : p x = false)
    (xs ys : List α) :
    (xs ++ x :: ys).dropWhile p = xs.dropWhile p ++ x :: ys := by
  induction xs with
  | nil => simp [hx]
  | cons z xs ih => by_cases hz : p z = true <;> simp [hz, ih]

/-- What is left of a run begins where the run ends. -/
theorem head_dropWhile {α : Type} {p : α → Bool} {xs : List α} :
    ∀ x ∈ (xs.dropWhile p).head?, p x = false := by
  intro x hx
  have hhead := List.head?_dropWhile_not p xs
  rwa [hx] at hhead

namespace Token

open Text (width)

theorem continues_newline (c : Char) : continues c '\n' = false := by
  have hpart : isNamePart '\n' = false := rfl
  have hdigit : '\n'.isDigit = false := rfl
  rw [continues, hpart, hdigit, Bool.and_false]
  split <;> rfl

theorem view_endOfLine (m : Mode) : m.view .endOfLine = .endOfLine := by
  cases m <;> rfl

theorem after_endOfLine (m : Mode) : m.after .endOfLine = .outside := by
  cases m <;> rfl

/-- What is cut off and what is left are together as wide as the whole. -/
theorem width_takeWhile_add (p : Char → Bool) (cs : List Char) :
    width (cs.takeWhile p) + width (cs.dropWhile p) = width cs := by
  rw [← Text.width_append, List.takeWhile_append_dropWhile]

-- ============================================================================
-- Tokens line by line
-- ============================================================================

/-- A newline is a token of its own, and closes whatever was open. -/
theorem scanFrom_cons_newline (m : Mode) (offset : Nat) (cs : List Char) :
    scanFrom m offset ('\n' :: cs) =
      ⟨.endOfLine, "\n", offset, offset + 1⟩ :: scanFrom .outside (offset + 1) cs := by
  have htail : ∀ p : Char → Bool, (∀ d, p d = false) →
      cs.takeWhile p = [] ∧ cs.dropWhile p = cs := by
    intro p hp
    cases cs <;> simp [hp]
  obtain ⟨htake, hdrop⟩ := htail (continues '\n') fun d => rfl
  have hkind : m.view (classify '\n' (cs.takeWhile (continues '\n'))) = .endOfLine := by
    rw [htake]
    exact view_endOfLine m
  rw [scanFrom_lexeme offset cs rfl (by decide) hkind (by simp), htake, hdrop, after_endOfLine]
  rfl

/-- **One newline.** The tokens of two texts with a newline between them. -/
theorem scanFrom_newline (m : Mode) (offset : Nat) (as bs : List Char) :
    scanFrom m offset (as ++ '\n' :: bs) =
      scanFrom m offset as ++
        ⟨.endOfLine, "\n", offset + width as, offset + width as + 1⟩ ::
          scanFrom .outside (offset + width as + 1) bs := by
  induction m, offset, as using scan_induction with
  | nil m offset =>
    rw [List.nil_append, scanFrom_cons_newline, scanFrom]
    rfl
  | space m offset c cs hspace ih =>
    rw [List.cons_append, scanFrom_space offset _ hspace, scanFrom_space offset _ hspace, ih]
    simp only [Text.width_cons, Nat.add_assoc]
  | comment m offset cs ih =>
    have hwidth := width_takeWhile_add isCommentPart cs
    have hoffset : offset + width ('#' :: cs.takeWhile isCommentPart) +
        width (cs.dropWhile isCommentPart) = offset + width ('#' :: cs) := by
      rw [Text.width_cons, Text.width_cons]
      omega
    rw [List.cons_append, scanFrom_comment, scanFrom_comment, takeWhile_append_stop rfl,
      dropWhile_append_stop rfl, ih, hoffset]
  | value offset cs ih =>
    have hwidth := width_takeWhile_add isValuePart cs
    have hoffset : offset + 1 + width (cs.takeWhile isValuePart) +
        width (cs.dropWhile isValuePart) = offset + width (':' :: cs) := by
      show _ = offset + (1 + width cs)
      omega
    rw [List.cons_append, scanFrom_value, scanFrom_value, takeWhile_append_stop rfl,
      dropWhile_append_stop rfl, ih, hoffset, List.cons_append, List.append_assoc]
  | lexeme m offset c cs kind hspace hcomment hkind hvalue ih =>
    have hnext := continues_newline c
    have hwidth := width_takeWhile_add (continues c) cs
    have hoffset : offset + width (c :: cs.takeWhile (continues c)) +
        width (cs.dropWhile (continues c)) = offset + width (c :: cs) := by
      rw [Text.width_cons, Text.width_cons]
      omega
    have htail : (cs ++ '\n' :: bs).takeWhile (continues c) = cs.takeWhile (continues c) :=
      takeWhile_append_stop hnext cs bs
    rw [List.cons_append, scanFrom_lexeme offset _ hspace hcomment (by rw [htail, hkind]) hvalue,
      scanFrom_lexeme offset cs hspace hcomment hkind hvalue, htail, dropWhile_append_stop hnext,
      ih, hoffset]
    rfl

/-- Tokens move along with the characters. -/
def shift (k : Nat) (t : Token) : Token := { t with start := k + t.start, stop := k + t.stop }

theorem scanFrom_add (k : Nat) (m : Mode) (offset : Nat) (cs : List Char) :
    scanFrom m (k + offset) cs = (scanFrom m offset cs).map (shift k) := by
  induction m, offset, cs using scan_induction with
  | nil m offset => rw [scanFrom, scanFrom]; rfl
  | space m offset c cs hspace ih =>
    rw [scanFrom_space _ cs hspace, scanFrom_space _ cs hspace, Nat.add_assoc, ih]
  | comment m offset cs ih => rw [scanFrom_comment, scanFrom_comment, Nat.add_assoc, ih]
  | value offset cs ih =>
    have hvalues : ∀ vs,
        ofValue (k + (offset + 1)) vs = (ofValue (offset + 1) vs).map (shift k) := by
      intro vs
      cases vs with
      | nil => rfl
      | cons v vs => simp [ofValue, shift, Nat.add_assoc]
    rw [scanFrom_value, scanFrom_value, Nat.add_assoc, Nat.add_assoc, ih, hvalues, List.map_cons,
      List.map_append]
    rfl
  | lexeme m offset c cs kind hspace hcomment hkind hvalue ih =>
    rw [scanFrom_lexeme _ cs hspace hcomment hkind hvalue,
      scanFrom_lexeme _ cs hspace hcomment hkind hvalue, Nat.add_assoc, List.map_cons, ih]
    rfl

/-- **Texts one below the other.** The tokens of two texts with a newline between them: those of the
upper one, whatever it leaves open, the newline, and those of the lower one, moved along. -/
theorem scan_newline (a b : String) :
    scan (a ++ "\n" ++ b) =
      scan a ++
        ⟨.endOfLine, "\n", a.utf8ByteSize, a.utf8ByteSize + 1⟩ ::
          (scan b).map (shift (a.utf8ByteSize + 1)) := by
  have hchars : (a ++ "\n" ++ b).toList = a.toList ++ '\n' :: b.toList := by
    rw [String.toList_append, String.toList_append, List.append_assoc]
    rfl
  have hlower := scanFrom_add (a.utf8ByteSize + 1) .outside 0 b.toList
  rw [Nat.add_zero] at hlower
  rw [scan, hchars, scanFrom_newline, Text.width_toList, Nat.zero_add, hlower]
  rfl

theorem eq_of_mem_ofValue {offset : Nat} {cs : List Char} {t : Token} (h : t ∈ ofValue offset cs) :
    t = ⟨.text, String.ofList cs, offset, offset + width cs⟩ := by
  cases cs with
  | nil => exact absurd h (by simp [ofValue])
  | cons c cs => exact List.mem_singleton.mp h

/-- No token goes on behind the end of its text. -/
theorem le_width_of_mem_scanFrom {m : Mode} {offset : Nat} {cs : List Char} {t : Token}
    (h : t ∈ scanFrom m offset cs) :
    t.start ≤ offset + width cs ∧ t.stop ≤ offset + width cs := by
  induction m, offset, cs using scan_induction with
  | nil m offset =>
    rw [scanFrom] at h
    exact absurd h (by simp)
  | space m offset c cs hspace ih =>
    rw [scanFrom_space offset cs hspace] at h
    have hle := ih h
    rw [Text.width_cons]
    omega
  | comment m offset cs ih =>
    rw [scanFrom_comment] at h
    have hle := ih h
    have hwidth := width_takeWhile_add isCommentPart cs
    rw [Text.width_cons] at hle ⊢
    omega
  | value offset cs ih =>
    have hwidth := width_takeWhile_add isValuePart cs
    have hcolon : width (':' :: cs) = 1 + width cs := rfl
    rw [scanFrom_value] at h
    rcases List.mem_cons.mp h with rfl | h
    · show offset ≤ _ ∧ offset + 1 ≤ _
      omega
    · rcases List.mem_append.mp h with h | h
      · rw [eq_of_mem_ofValue h]
        show offset + 1 ≤ _ ∧ offset + 1 + width (cs.takeWhile isValuePart) ≤ _
        omega
      · have hle := ih h
        omega
  | lexeme m offset c cs kind hspace hcomment hkind hvalue ih =>
    have hwidth := width_takeWhile_add (continues c) cs
    rw [scanFrom_lexeme offset cs hspace hcomment hkind hvalue] at h
    rcases List.mem_cons.mp h with rfl | h
    · show offset ≤ _ ∧ offset + (c.utf8Size + _) ≤ offset + (c.utf8Size + _)
      omega
    · have hle := ih h
      rw [Text.width_cons] at hle ⊢
      omega

theorem eq_newline_of_symbol {c : Char} (h : symbol c = .endOfLine) : c = '\n' := by
  unfold symbol at h
  split at h <;> simp_all

theorem eq_newline_of_view {m : Mode} {c : Char} {tail : List Char}
    (h : m.view (classify c tail) = .endOfLine) : c = '\n' := by
  have hclass : classify c tail = .endOfLine := by
    cases m <;> cases hk : classify c tail <;> simp_all [Mode.view]
  unfold classify at hclass
  split at hclass
  · split at hclass <;> simp at hclass
  · split at hclass
    · simp at hclass
    · exact eq_newline_of_symbol hclass

/-- Only a newline is scanned as the end of a line. -/
theorem kind_ne_endOfLine {m : Mode} {offset : Nat} {cs : List Char} (hcs : '\n' ∉ cs) {t : Token}
    (h : t ∈ scanFrom m offset cs) : t.kind ≠ .endOfLine := by
  have hdrop : ∀ (p : Char → Bool) (cs : List Char), '\n' ∉ cs → '\n' ∉ cs.dropWhile p :=
    fun p cs hcs hmem => hcs (List.dropWhile_subset p hmem)
  induction m, offset, cs using scan_induction with
  | nil m offset =>
    rw [scanFrom] at h
    exact absurd h (by simp)
  | space m offset c cs hspace ih =>
    rw [scanFrom_space offset cs hspace] at h
    exact ih (List.not_mem_of_not_mem_cons hcs) h
  | comment m offset cs ih =>
    rw [scanFrom_comment] at h
    exact ih (hdrop _ cs (List.not_mem_of_not_mem_cons hcs)) h
  | value offset cs ih =>
    rw [scanFrom_value] at h
    rcases List.mem_cons.mp h with rfl | h
    · simp
    · rcases List.mem_append.mp h with h | h
      · rw [eq_of_mem_ofValue h]
        simp
      · exact ih (hdrop _ cs (List.not_mem_of_not_mem_cons hcs)) h
  | lexeme m offset c cs kind hspace hcomment hkind hvalue ih =>
    rw [scanFrom_lexeme offset cs hspace hcomment hkind hvalue] at h
    rcases List.mem_cons.mp h with rfl | h
    · rintro rfl
      exact hcs (eq_newline_of_view hkind ▸ List.mem_cons_self)
    · exact ih (hdrop _ cs (List.not_mem_of_not_mem_cons hcs)) h

end Token

-- ============================================================================
-- Words line by line
-- ============================================================================

open Text (newline bytes)

/-- The words of a text. -/
def wordsOf (cs : List Char) : List Word :=
  (Token.scanFrom .outside 0 cs).map (Token.word (.ofBytes (bytes cs)))

/-- What ends a text. -/
def endOf (cs : List Char) : Word :=
  (Token.endOfFile (.ofBytes (bytes cs))).word (.ofBytes (bytes cs))

/-- The newline behind a text that others follow. -/
def newlineOf (cs : List Char) : Word :=
  ⟨.endOfLine, "\n", (LineIndex.ofBytes (bytes cs)).position (bytes cs).length,
    ⟨(bytes cs).count newline + 1, 0⟩⟩

theorem lexical_wordsOf (cs : List Char) : Lexical true ((wordsOf cs).map Word.shape) := by
  rw [wordsOf, List.map_map]
  exact Token.lexical_scanFrom .outside 0 cs

/-- The word as many lines further down. -/
def Word.below (lines : Nat) (w : Word) : Word :=
  { w with span := ⟨w.span.start.below lines, w.span.stop.below lines⟩ }

section Newline

variable (as bs : List Char)

/-- The words of the upper text keep their places. -/
theorem word_above {t : Token} (h : t ∈ Token.scanFrom .outside 0 as) :
    t.word (.ofBytes (bytes (as ++ '\n' :: bs))) = t.word (.ofBytes (bytes as)) := by
  have hle := Token.le_width_of_mem_scanFrom h
  rw [Nat.zero_add, ← Text.length_bytes] at hle
  rw [Text.bytes_newline, Token.word, Token.word, LineIndex.span, LineIndex.span,
    LineIndex.position_append _ _ hle.1, LineIndex.position_append _ _ hle.2]

/-- The words of the lower text move down. -/
theorem word_below (t : Token) :
    (t.shift (Text.width as + 1)).word (.ofBytes (bytes (as ++ '\n' :: bs))) =
      (t.word (.ofBytes (bytes bs))).below ((bytes as).count newline + 1) := by
  have hstart := LineIndex.position_below (bytes as) (bytes bs) t.start
  have hstop := LineIndex.position_below (bytes as) (bytes bs) t.stop
  rw [← Text.bytes_newline, Text.length_bytes] at hstart hstop
  rw [Token.word, LineIndex.span]
  dsimp only [Token.shift]
  rw [hstart, hstop]
  rfl

/-- The newline stands at the end of the upper text. -/
theorem word_newline :
    (Token.mk .endOfLine "\n" (Text.width as) (Text.width as + 1)).word
      (.ofBytes (bytes (as ++ '\n' :: bs))) = newlineOf as := by
  have hfirst : (LineIndex.ofBytes (bytes bs)).position 0 = ⟨0, 0⟩ :=
    LineIndex.position_append [] (bytes bs) (Nat.le_refl 0)
  have hstop := LineIndex.position_below (bytes as) (bytes bs) 0
  rw [hfirst, Nat.add_zero] at hstop
  rw [Text.bytes_newline, ← Text.length_bytes, Token.word, LineIndex.span,
    LineIndex.position_append _ _ (Nat.le_refl _), hstop]
  rfl

/-- **One newline.** The words of two texts with a newline between them: those of the lower one are
further down. -/
theorem wordsOf_newline :
    wordsOf (as ++ '\n' :: bs) =
      wordsOf as ++
        newlineOf as :: (wordsOf bs).map (Word.below ((bytes as).count newline + 1)) := by
  have hlower := Token.scanFrom_add (Text.width as + 1) .outside 0 bs
  rw [Nat.add_zero] at hlower
  rw [wordsOf, Token.scanFrom_newline, Nat.zero_add, hlower, List.map_append, List.map_cons,
    word_newline, List.map_map]
  congr 1
  · exact List.map_congr_left fun t ht => word_above as bs ht
  · congr 1
    rw [wordsOf, List.map_map]
    exact List.map_congr_left fun t _ => word_below as bs t

theorem endOf_newline :
    endOf (as ++ '\n' :: bs) = (endOf bs).below ((bytes as).count newline + 1) := by
  have hsize : (bytes (as ++ '\n' :: bs)).length = Text.width as + 1 + (bytes bs).length := by
    rw [Text.bytes_newline, List.length_append, List.length_cons, Text.length_bytes]
    omega
  have hshift : Token.endOfFile (.ofBytes (bytes (as ++ '\n' :: bs))) =
      (Token.endOfFile (.ofBytes (bytes bs))).shift (Text.width as + 1) := by
    show Token.mk .endOfFile "" (bytes (as ++ '\n' :: bs)).length
      (bytes (as ++ '\n' :: bs)).length = _
    rw [hsize]
    rfl
  rw [endOf, hshift, word_below]
  rfl

end Newline

/-- No word of a text begins below its last line. -/
theorem line_le_of_mem_wordsOf {cs : List Char} {w : Word} (h : w ∈ wordsOf cs) :
    w.span.start.line ≤ (bytes cs).count newline := by
  obtain ⟨t, -, rfl⟩ := List.mem_map.mp h
  exact LineIndex.line_position_le (bytes cs) t.start

end TimedNet
