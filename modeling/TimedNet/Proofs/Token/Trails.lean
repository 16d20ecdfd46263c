/-
  TimedNet.Proofs.Token.Trails

  What may be put behind a line. Blanks and a comment are skipped, unless they are data in the value
  of an attribute; so a line that leaves no attribute list open has the same tokens with them
  (`scanFrom_trail`). `Mode.through` tells from the kinds of its tokens alone what a line leaves open.
-/
import TimedNet.Proofs.Token.Lossless

namespace TimedNet.Token

open Text (width)

-- ============================================================================
-- Modes behind tokens
-- ============================================================================

/-- The mode of the scanner behind tokens of these kinds. -/
def Mode.through (m : Mode) (ks : List TokenKind) : Mode := ks.foldl Mode.after m

theorem Mode.through_append (m : Mode) (ks js : List TokenKind) :
    m.through (ks ++ js) = (m.through ks).through js := List.foldl_append

/-- A value does not change the mode. -/
theorem Mode.through_value (m : Mode) (offset : Nat) (cs : List Char) :
    m.through ((ofValue offset cs).map kind) = m := by
  cases cs with
  | nil => rfl
  | cons c cs => cases m <;> rfl

-- ============================================================================
-- Trails
-- ============================================================================

section Trails

variable {trail : List Char} (htrail : IsGap trail [])

include htrail

/-- Nothing in a trail ends its line. -/
theorem newline_notMem_of_trail : '\n' ∉ trail := by
  generalize hrest : [] = rest at htrail
  induction htrail with
  | nil => simp
  | space hc h ih =>
    rintro (_ | ⟨_, hmem⟩)
    · exact absurd hc (by decide)
    · exact ih hrest hmem
  | comment hcomment _ => simpa using hcomment

/-- No lexeme goes on with a trail. -/
theorem continues_trail (c : Char) : ∀ d ∈ trail.head?, continues c d = false := by
  have hfree : ∀ d, isNamePart d = false → d.isDigit = false → continues c d = false := by
    intro d hpart hdigit
    simp [continues, hpart, hdigit]
  intro d hd
  cases htrail with
  | nil => exact absurd hd (by simp)
  | space hc h =>
    obtain rfl := Option.some.inj hd
    simp only [isSpace, Bool.or_eq_true, beq_iff_eq] at hc
    rcases hc with (rfl | rfl) | rfl <;> exact hfree _ rfl rfl
  | comment hcomment hrest =>
    obtain rfl := Option.some.inj hd
    exact hfree _ rfl rfl

/-- There are no tokens in a trail. -/
theorem scanFrom_of_trail (m : Mode) (offset : Nat) : scanFrom m offset trail = [] := by
  generalize hrest : [] = rest at htrail
  induction htrail generalizing offset with
  | nil => rw [scanFrom]
  | @space c gap rest hc h ih =>
    rw [scanFrom_space offset gap hc]
    exact ih _ hrest
  | @comment comment rest hcomment _ =>
    have hall : ∀ c ∈ comment, isCommentPart c = true := by
      intro c hc
      simpa [isCommentPart] using ne_of_mem_of_not_mem hc hcomment
    rw [scanFrom_comment, List.dropWhile_eq_nil_iff.mpr hall, scanFrom]

end Trails

-- ============================================================================
-- Trails behind lines
-- ============================================================================

/-- A run ends where it did before if it is not gone on with. -/
theorem takeWhile_dropWhile_append {p : Char → Bool} {more : List Char}
    (hmore : ∀ c ∈ more.head?, p c = false) (cs : List Char) :
    (cs ++ more).takeWhile p = cs.takeWhile p ∧
      (cs ++ more).dropWhile p = cs.dropWhile p ++ more := by
  have hhead : ∀ c ∈ (cs.dropWhile p ++ more).head?, p c = false := by
    have hleft : ∀ c ∈ (cs.dropWhile p).head?, p c = false := head_dropWhile
    cases hdrop : cs.dropWhile p with
    | nil => exact hmore
    | cons c rest => rwa [hdrop] at hleft
  have hrun : ∀ c ∈ cs.takeWhile p, p c = true := fun c hc => List.mem_takeWhile_imp hc
  have hcut : cs ++ more = cs.takeWhile p ++ (cs.dropWhile p ++ more) := by
    rw [← List.append_assoc, List.takeWhile_append_dropWhile]
  rw [hcut]
  exact takeWhile_append_of_head hrun hhead

/-- **One line and its trail.** Behind a line that leaves no list open, a trail brings no token, and
does not change any. -/
theorem scanFrom_trail {trail : List Char} (htrail : IsGap trail []) {m : Mode} {offset : Nat}
    {cs : List Char} (hcs : '\n' ∉ cs) (hopen : m.through ((scanFrom m offset cs).map kind) = .outside) :
    scanFrom m offset (cs ++ trail) = scanFrom m offset cs := by
  have hdrop : ∀ (p : Char → Bool) (cs : List Char), '\n' ∉ cs → '\n' ∉ cs.dropWhile p :=
    fun p cs hcs hmem => hcs (List.dropWhile_subset p hmem)
  induction m, offset, cs using scan_induction with
  | nil m offset =>
    rw [List.nil_append, scanFrom_of_trail htrail, scanFrom]
  | space m offset c cs hspace ih =>
    rw [scanFrom_space offset cs hspace] at hopen ⊢
    rw [List.cons_append, scanFrom_space offset _ hspace]
    exact ih (List.not_mem_of_not_mem_cons hcs) hopen
  | comment m offset cs ih =>
    -- a comment goes on over the trail
    have hgap : ∀ ds, '\n' ∉ ds → scanFrom m offset ('#' :: ds) = [] := fun ds hds =>
      scanFrom_of_trail (.comment hds (by simp)) m offset
    have hcs := List.not_mem_of_not_mem_cons hcs
    have hboth : '\n' ∉ cs ++ trail := by
      simpa using ⟨hcs, newline_notMem_of_trail htrail⟩
    rw [List.cons_append, hgap _ hboth, hgap cs hcs]
  | value offset cs ih =>
    rw [scanFrom_value, List.map_cons, List.map_append] at hopen
    have hbehind : Mode.through .separator ((scanFrom .separator
        (offset + 1 + width (cs.takeWhile isValuePart)) (cs.dropWhile isValuePart)).map kind) =
          .outside := by
      have hcut : Mode.through .key (.colon :: ((ofValue (offset + 1) (cs.takeWhile isValuePart)).map
          kind ++ _)) = .outside := hopen
      rwa [← List.singleton_append, Mode.through_append, Mode.through_append,
        Mode.through_value] at hcut
    cases hrest : cs.dropWhile isValuePart with
    | nil =>
      -- a line that ends in a value leaves its list open
      rw [hrest, scanFrom] at hbehind
      exact absurd hbehind (by decide)
    | cons d rest =>
      have hd : isValuePart d = false := head_dropWhile d (by rw [hrest]; rfl)
      have hsplit : cs = cs.takeWhile isValuePart ++ d :: rest := by
        rw [← hrest, List.takeWhile_append_dropWhile]
      have htake : (cs ++ trail).takeWhile isValuePart = cs.takeWhile isValuePart := by
        rw [hsplit, List.append_assoc, List.cons_append, takeWhile_append_stop hd,
          takeWhile_append_stop hd]
      have hdropped : (cs ++ trail).dropWhile isValuePart = cs.dropWhile isValuePart ++ trail := by
        rw [hsplit, List.append_assoc, List.cons_append, dropWhile_append_stop hd,
          dropWhile_append_stop hd, List.append_assoc, List.cons_append]
      rw [List.cons_append, scanFrom_value, scanFrom_value, htake, hdropped,
        ih (hdrop _ cs (List.not_mem_of_not_mem_cons hcs)) hbehind]
  | lexeme m offset c cs kind hspace hcomment hkind hvalue ih =>
    obtain ⟨htake, hdropped⟩ := takeWhile_dropWhile_append (continues_trail htrail c) cs
    rw [scanFrom_lexeme offset cs hspace hcomment hkind hvalue] at hopen ⊢
    rw [List.cons_append, scanFrom_lexeme offset _ hspace hcomment (by rw [htake, hkind]) hvalue,
      htake, hdropped, ih (hdrop _ cs (List.not_mem_of_not_mem_cons hcs)) hopen]

end TimedNet.Token
