/-
  TimedNet.Proofs.Token.Entries

  Keys and values of attributes in a text. Behind a key there are blanks, a `:`, and all that can be
  part of a value (`IsEntry`). If there is any of it, it is one token (`exists_entry_of_value`);
  if there is none, the next token stands right behind the `:` (`exists_entry_of_no_value`), for
  where a value is due the scanner leaves no gap (`start_of_no_value`).
-/
import TimedNet.Proofs.Token.Windows

namespace TimedNet.Token

open Text (width)

-- ============================================================================
-- Where values stand
-- ============================================================================

/-- Before anything but the end of its line, a gap is nothing but blanks. -/
theorem IsGap.forall_isSpace {gap rest : List Char} (h : IsGap gap rest)
    (hrest : ∃ c ∈ rest.head?, c ≠ '\n') : ∀ c ∈ gap, isSpace c = true := by
  induction h with
  | nil => simp
  | space hc _ ih => exact List.forall_mem_cons.mpr ⟨hc, ih hrest⟩
  | comment _ hnewline =>
    obtain ⟨c, hc, hne⟩ := hrest
    exact absurd (hnewline c hc) hne

/-- Blanks may stand in a value, and so may the beginning of a comment. -/
theorem isValuePart_of_gap {c : Char} (h : isSpace c = true ∨ c = '#') : isValuePart c = true := by
  rcases h with h | rfl
  · simp only [isSpace, Bool.or_eq_true, beq_iff_eq] at h
    rcases h with (rfl | rfl) | rfl <;> rfl
  · rfl

/-- There is no gap in front of what cannot go on with a value. -/
theorem IsGap.eq_nil_of_value {gap rest : List Char} (h : IsGap gap rest)
    (hhead : ∀ c ∈ (gap ++ rest).head?, isValuePart c = false) : gap = [] := by
  cases h with
  | nil => rfl
  | @space c _ _ hc h =>
    exact absurd ((isValuePart_of_gap (Or.inl hc)).symm.trans (hhead c rfl)) (by decide)
  | comment hcomment hrest => exact absurd (hhead '#' rfl) (by decide)

/-- The token that ends a value, spelled out. -/
theorem Fits.endsValue {before : List Token} {t : Token} {rest : List Char}
    (h : t.Fits before rest) (hkind : t.kind = .colon ∨ t.kind = .rBrace) :
    ∃ c, t.text.toList = [c] ∧ (c = ':' ∨ c = '\x7d') := by
  have hother : ¬(t.kind = .ident ∨ t.kind.isKeyword = true) ∧ t.kind ≠ .integer ∧
      t.kind ≠ .text := by
    rcases hkind with hk | hk <;> simp [hk, TokenKind.isKeyword]
  obtain ⟨c, htext, hsymbol⟩ := h.symbol hother.1 hother.2.1 hother.2.2
  refine ⟨c, by simp [htext], ?_⟩
  exact hkind.imp (fun hk => symbol_injective (hsymbol.symm.trans hk) (by decide))
    fun hk => symbol_injective (hsymbol.symm.trans hk) (by decide)

/-- A lexeme is found where the characters begin. -/
theorem start_of_lexeme {m : Mode} {offset : Nat} {c : Char} {cs : List Char} {t : Token}
    {ts : List Token} (h : scanFrom m offset (c :: cs) = t :: ts) (hspace : isSpace c = false)
    (hcomment : c ≠ '#') : t.start = offset := by
  rw [scanFrom, if_neg (by simp [hspace]), if_neg hcomment] at h
  dsimp only at h
  split at h <;> exact (List.cons.inj h).1 ▸ rfl

/-- **Absent values.** If the `:` of a key has no value behind it, the next token stands right
there. -/
theorem start_of_no_value {m : Mode} {offset : Nat} {cs : List Char} {before after : List Token}
    {colon next : Token} (h : scanFrom m offset cs = before ++ colon :: next :: after)
    (hkey : m.through (before.map kind) = .key) (hcolon : colon.kind = .colon)
    (hnext : next.kind ≠ .text) : next.start = colon.stop := by
  obtain ⟨front, c, rest, -, hspace, hcomment, -, hscan⟩ := scanFrom_behind h (by simp [hcolon])
  rw [hkey] at hscan
  obtain rfl : c = ':' := by
    by_cases hkind : Mode.key.view (classify c (rest.takeWhile (continues c))) = .colon
    · exact eq_colon_of_view hkind
    · rw [scanFrom_lexeme _ rest hspace hcomment rfl fun hvalue => hkind hvalue.2] at hscan
      rw [← (List.cons.inj hscan).1] at hcolon
      exact absurd hcolon hkind
  rw [scanFrom_value] at hscan
  obtain ⟨hfirst, hmore⟩ := List.cons.inj hscan
  have hsplit : _ = [] ++ next :: after := hmore
  obtain ⟨before', hvalue, hmore⟩ := exists_behind_ofValue hsplit hnext
  obtain ⟨hvalue, rfl⟩ := List.append_eq_nil_iff.mp hvalue.symm
  have hstop : colon.stop = colon.start + 1 := by rw [← hfirst]
  have hhead : ∀ d ∈ (rest.dropWhile isValuePart).head?, isValuePart d = false := head_dropWhile
  cases hleft : rest.dropWhile isValuePart with
  | nil =>
    rw [hleft, scanFrom] at hmore
    exact absurd hmore (by simp)
  | cons d more =>
    have hd : isValuePart d = false := hhead d (by rw [hleft]; rfl)
    have hlexeme : isSpace d = false ∧ d ≠ '#' := by
      rw [← Bool.not_eq_true, ← not_or]
      exact fun hgap => absurd ((isValuePart_of_gap hgap).symm.trans hd) (by decide)
    have hnone : width (rest.takeWhile isValuePart) = 0 := by
      cases hrun : rest.takeWhile isValuePart with
      | nil => rfl
      | cons e run =>
        rw [hrun] at hvalue
        exact absurd hvalue (by simp [ofValue])
    rw [hleft] at hmore
    rw [start_of_lexeme hmore hlexeme.1 hlexeme.2, hnone, hstop]

namespace Laid

variable {before ts : List Token} {offset : Nat} {cs : List Char} {key colon value next : Token}

/-- A key and the `:` behind it. -/
theorem cut_key (h : Laid before offset cs (key :: colon :: ts)) (hcolon : colon.kind = .colon) :
    ∃ front gap rest, cs = front ++ (key.text.toList ++ (gap ++ ':' :: rest)) ∧
      (∀ c ∈ gap, isSpace c = true) ∧ key.start = offset + width front ∧
      key.stop = key.start + key.text.utf8ByteSize ∧ colon.stop = key.stop + width gap + 1 ∧
      Laid (before ++ [key] ++ [colon]) colon.stop rest ts := by
  cases h with
  | token front rest hcs hfront hstart hfits h =>
    cases h with
    | token gap rest hrest hgap hcolonStart hcolonFits h =>
      obtain ⟨c, htext, hsymbol⟩ := hcolonFits.symbol (by simp [hcolon, TokenKind.isKeyword])
        (by simp [hcolon]) (by simp [hcolon])
      obtain rfl : c = ':' := symbol_injective (hsymbol.symm.trans hcolon) (by decide)
      have hchars : colon.text.toList = [':'] := by simp [htext]
      rw [hchars, List.singleton_append] at hrest hgap
      refine ⟨front, gap, _, by rw [hcs, hrest], ?_, hstart, hfits.extent, ?_, h⟩
      · exact hgap.forall_isSpace ⟨':', rfl, by decide⟩
      · rw [hcolonFits.extent, hcolonStart, htext]
        rfl

/-- A value that stands where its key ends, and the token behind it. -/
theorem cut_value (h : Laid before offset cs (value :: next :: ts)) (hvalue : value.kind = .text)
    (hoffset : ∀ u ∈ before.getLast?, u.stop = offset)
    (hnext : next.kind = .colon ∨ next.kind = .rBrace) :
    ∃ c rest, cs = value.text.toList ++ c :: rest ∧ (c = ':' ∨ c = '\x7d') ∧
      IsRawValue value.text ∧ value.start = offset ∧
      value.stop = offset + value.text.utf8ByteSize := by
  cases h with
  | token gap rest hcs hgap hstart hfits h =>
    obtain ⟨hraw, hend, u, hu, -, hstop⟩ := hfits.value hvalue
    have hzero : width gap = 0 := by
      have hsame := hoffset u hu
      omega
    obtain rfl : gap = [] := Text.width_eq_zero_iff.mp hzero
    cases h with
    | token gap' rest' hrest hgap' _ hnextFits _ =>
      obtain ⟨c, hchars, hc⟩ := hnextFits.endsValue hnext
      obtain rfl := hgap'.eq_nil_of_value (hrest ▸ hend)
      rw [hchars] at hrest
      refine ⟨c, rest', by rw [hcs, hrest]; rfl, hc, hraw, ?_, ?_⟩
      · rw [hstart, hzero, Nat.add_zero]
      · rw [hfits.extent, hstart, hzero, Nat.add_zero]

/-- A token right where characters begin. -/
theorem cut_next (h : Laid before offset cs (next :: ts)) (hstart : next.start = offset)
    (hnext : next.kind = .colon ∨ next.kind = .rBrace) :
    ∃ c rest, cs = c :: rest ∧ (c = ':' ∨ c = '\x7d') := by
  cases h with
  | token gap rest hcs hgap hstart' hfits h =>
    obtain rfl : gap = [] := Text.width_eq_zero_iff.mp (by omega)
    obtain ⟨c, hchars, hc⟩ := hfits.endsValue hnext
    rw [hchars] at hcs
    exact ⟨c, rest, hcs, hc⟩

end Laid

-- ============================================================================
-- Keys and values in texts
-- ============================================================================

/-- A text with a key in it and, behind a `:`, all that is written for its value, which may be
nothing. -/
structure IsEntry (source pre key gap raw post : String) : Prop where
  split : source = pre ++ key ++ gap ++ ":" ++ raw ++ post
  gap : ∀ c ∈ gap.toList, isSpace c = true
  raw : IsRawValue raw
  ended : ∃ c ∈ post.toList.head?, c = ':' ∨ c = '\x7d'

section Entries

variable {source : String} {before after : List Token} {key colon value next : Token}

/-- A key in a text, and what is laid out behind its `:`. -/
theorem exists_key {ts : List Token} (h : scan source = before ++ key :: colon :: ts)
    (hcolon : colon.kind = .colon) :
    ∃ pre gap rest : String, source = pre ++ key.text ++ gap ++ ":" ++ rest ∧
      (∀ c ∈ gap.toList, isSpace c = true) ∧ key.start = pre.utf8ByteSize ∧
      key.stop = (pre ++ key.text).utf8ByteSize ∧
      colon.stop = (pre ++ key.text ++ gap ++ ":").utf8ByteSize ∧
      Laid (before ++ [key] ++ [colon]) colon.stop rest.toList ts := by
  obtain ⟨done, left, hdone, hlaid, -⟩ := (h ▸ laid_scan source).cut rfl
  obtain ⟨front, gap, rest, hleft, hgap, hstart, hstop, hend, hmore⟩ := hlaid.cut_key hcolon
  have hsize : key.start = (String.ofList (done ++ front)).utf8ByteSize := by
    rw [hstart, utf8ByteSize_ofList, Text.width_append, Nat.zero_add]
  have hone : ":".utf8ByteSize = 1 := rfl
  refine ⟨String.ofList (done ++ front), String.ofList gap, String.ofList rest, ?_, ?_, hsize, ?_,
    ?_, ?_⟩
  · rw [← String.toList_inj, hdone, hleft]
    simp
  · rwa [String.toList_ofList]
  · rw [String.utf8ByteSize_append, ← hsize, hstop]
  · rw [hend, hstop, hsize]
    simp only [String.utf8ByteSize_append, utf8ByteSize_ofList, hone]
  · rwa [String.toList_ofList]

/-- **Values.** A value that follows the `:` behind a key is all that is written for it, and stands
right behind the `:`. -/
theorem exists_entry_of_value
    (h : scan source = before ++ key :: colon :: value :: next :: after)
    (hcolon : colon.kind = .colon) (hvalue : value.kind = .text)
    (hnext : next.kind = .colon ∨ next.kind = .rBrace) :
    ∃ pre gap post : String, IsEntry source pre key.text gap value.text post ∧
      key.start = pre.utf8ByteSize ∧ key.stop = (pre ++ key.text).utf8ByteSize ∧
      value.start = (pre ++ key.text ++ gap ++ ":").utf8ByteSize ∧
      value.stop = (pre ++ key.text ++ gap ++ ":" ++ value.text).utf8ByteSize := by
  obtain ⟨pre, gap, rest, hsource, hgap, hstart, hstop, hend, hlaid⟩ := exists_key h hcolon
  have hlast : ∀ u ∈ (before ++ [key] ++ [colon]).getLast?, u.stop = colon.stop := by simp
  obtain ⟨c, more, hrest, hc, hraw, hbegin, hextent⟩ := hlaid.cut_value hvalue hlast hnext
  refine ⟨pre, gap, String.ofList (c :: more), ⟨?_, hgap, hraw, ?_⟩, hstart, hstop, ?_, ?_⟩
  · rw [← String.toList_inj, hsource]
    simp [hrest]
  · exact ⟨c, by rw [String.toList_ofList]; rfl, hc⟩
  · rw [hbegin, hend]
  · rw [hextent, hend]
    exact String.utf8ByteSize_append.symm

/-- **No values.** If no value follows the `:` behind a key, nothing is written for it, and the next
token stands right behind the `:`. -/
theorem exists_entry_of_no_value (h : scan source = before ++ key :: colon :: next :: after)
    (hkey : Mode.through .outside ((before ++ [key]).map kind) = .key)
    (hcolon : colon.kind = .colon) (hnext : next.kind = .colon ∨ next.kind = .rBrace) :
    ∃ pre gap post : String, IsEntry source pre key.text gap "" post ∧
      key.start = pre.utf8ByteSize ∧ key.stop = (pre ++ key.text).utf8ByteSize ∧
      next.start = (pre ++ key.text ++ gap ++ ":").utf8ByteSize := by
  obtain ⟨pre, gap, rest, hsource, hgap, hstart, hstop, hend, hlaid⟩ := exists_key h hcolon
  have hbare : next.start = colon.stop := by
    have hsplit : scan source = (before ++ [key]) ++ colon :: next :: after := by simp [h]
    refine start_of_no_value hsplit hkey hcolon ?_
    rcases hnext with hk | hk <;> simp [hk]
  obtain ⟨c, more, hrest, hc⟩ := hlaid.cut_next hbare hnext
  refine ⟨pre, gap, rest, ⟨?_, hgap, fun c hc => absurd hc (by simp), ?_⟩, hstart, hstop, ?_⟩
  · rw [hsource, String.append_empty]
  · exact ⟨c, by rw [hrest]; rfl, hc⟩
  · rw [hbare, hend]

end Entries

end TimedNet.Token
