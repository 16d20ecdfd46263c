/-
  TimedNet.Proofs.Token.Windows

  Tokens of a piece of a text. If the scanner goes on from a token that is not a value, in the mode
  that it is in there, it finds the same tokens (`scanFrom_behind`); if it is given no more
  characters than up to where a token stops, it finds the tokens up to that one
  (`scanFrom_up_to`). So from where no attribute list is open, the stretch from one token to
  another is a piece of the text that has these tokens, and those between them
  (`exists_window`).
-/
import TimedNet.Proofs.Text.Slices
import TimedNet.Proofs.Token.Trails

namespace TimedNet.Token

open Text (width)

-- ============================================================================
-- From a token on
-- ============================================================================

/-- A token that is not a value stands behind the value. -/
theorem exists_behind_ofValue {offset : Nat} {value : List Char} {ss before after : List Token}
    {t : Token} (h : ofValue offset value ++ ss = before ++ t :: after) (ht : t.kind ≠ .text) :
    ∃ before', before = ofValue offset value ++ before' ∧ ss = before' ++ t :: after := by
  cases value with
  | nil => exact ⟨before, rfl, h⟩
  | cons c value =>
    cases before with
    | nil =>
      obtain ⟨rfl, -⟩ := List.cons.inj h
      exact absurd rfl ht
    | cons u before =>
      obtain ⟨rfl, hrest⟩ := List.cons.inj h
      exact ⟨before, rfl, hrest⟩

/-- **From a token on.** A token that is not a value begins as a lexeme, and the scanner finds it
and those that follow if it begins there. -/
theorem scanFrom_behind {m : Mode} {offset : Nat} {cs : List Char} {before : List Token} {t : Token}
    {after : List Token} (h : scanFrom m offset cs = before ++ t :: after) (ht : t.kind ≠ .text) :
    ∃ front c rest, cs = front ++ c :: rest ∧ isSpace c = false ∧ c ≠ '#' ∧
      t.start = offset + width front ∧
      scanFrom (m.through (before.map kind)) t.start (c :: rest) = t :: after := by
  induction m, offset, cs using scan_induction generalizing before with
  | nil m offset =>
    rw [scanFrom] at h
    exact absurd h.symm (by simp)
  | space m offset c cs hspace ih =>
    rw [scanFrom_space offset cs hspace] at h
    obtain ⟨front, d, rest, rfl, hd, hcomment, hstart, hscan⟩ := ih h
    refine ⟨c :: front, d, rest, rfl, hd, hcomment, ?_, hscan⟩
    rw [hstart, Text.width_cons, Nat.add_assoc]
  | comment m offset cs ih =>
    rw [scanFrom_comment] at h
    obtain ⟨front, d, rest, hcs, hd, hcomment, hstart, hscan⟩ := ih h
    refine ⟨'#' :: cs.takeWhile isCommentPart ++ front, d, rest, ?_, hd, hcomment, ?_, hscan⟩
    · rw [List.append_assoc, ← hcs, List.cons_append, List.takeWhile_append_dropWhile]
    · rw [hstart, Text.width_append, Nat.add_assoc]
  | value offset cs ih =>
    cases before with
    | nil =>
      have hfirst := h
      rw [scanFrom_value] at hfirst
      obtain rfl := (List.cons.inj hfirst).1
      exact ⟨[], ':', cs, rfl, rfl, by decide, rfl, h⟩
    | cons colon before =>
      rw [scanFrom_value] at h
      obtain ⟨rfl, hrest⟩ := List.cons.inj h
      obtain ⟨before', rfl, hmore⟩ := exists_behind_ofValue hrest ht
      obtain ⟨front, d, rest, hcs, hd, hcomment, hstart, hscan⟩ := ih hmore
      refine ⟨':' :: cs.takeWhile isValuePart ++ front, d, rest, ?_, hd, hcomment, ?_, ?_⟩
      · rw [List.append_assoc, ← hcs, List.cons_append, List.takeWhile_append_dropWhile]
      · have hone : ':'.utf8Size = 1 := rfl
        rw [hstart, List.cons_append, Text.width_cons, Text.width_append, hone]
        omega
      · show scanFrom (Mode.through .separator ((ofValue _ _ ++ before').map kind)) _ _ = _
        rwa [List.map_append, Mode.through_append, Mode.through_value]
  | lexeme m offset c cs kind' hspace hcomment hkind hvalue ih =>
    have hscan := scanFrom_lexeme offset cs hspace hcomment hkind hvalue
    cases before with
    | nil =>
      have hfirst := h
      rw [hscan] at hfirst
      obtain rfl := (List.cons.inj hfirst).1
      exact ⟨[], c, cs, rfl, hspace, hcomment, rfl, h⟩
    | cons u before =>
      rw [hscan] at h
      obtain ⟨rfl, hmore⟩ := List.cons.inj h
      obtain ⟨front, d, rest, hcs, hd, hdcomment, hstart, hscan⟩ := ih hmore
      refine ⟨c :: cs.takeWhile (continues c) ++ front, d, rest, ?_, hd, hdcomment, ?_, hscan⟩
      · rw [List.append_assoc, ← hcs, List.cons_append, List.takeWhile_append_dropWhile]
      · rw [hstart, Text.width_append, Nat.add_assoc]

-- ============================================================================
-- Up to a token
-- ============================================================================

/-- What is left of a run may be cut off anywhere. -/
theorem run_append_of_dropWhile {p : Char → Bool} {cs text rest : List Char}
    (h : cs.dropWhile p = text ++ rest) :
    (cs.takeWhile p ++ text).takeWhile p = cs.takeWhile p ∧
      (cs.takeWhile p ++ text).dropWhile p = text := by
  have hhead : ∀ c ∈ (cs.dropWhile p).head?, p c = false := head_dropWhile
  refine takeWhile_append_of_head (fun c hc => List.mem_takeWhile_imp hc) fun c hc => hhead c ?_
  rw [h, List.head?_append, Option.mem_def.mp hc]
  rfl

/-- Tokens from a value on are none, or those up to the value and others behind it. -/
theorem ofValue_append_cases {offset : Nat} {value : List Char} {ss ts after : List Token}
    (h : ofValue offset value ++ ss = ts ++ after) :
    ts = [] ∨ ∃ ts', ts = ofValue offset value ++ ts' ∧ ss = ts' ++ after := by
  cases value with
  | nil => exact Or.inr ⟨ts, rfl, h⟩
  | cons c value =>
    cases ts with
    | nil => exact Or.inl rfl
    | cons t ts =>
      obtain ⟨rfl, hrest⟩ := List.cons.inj h
      exact Or.inr ⟨ts, rfl, hrest⟩

/-- Where the last of the tokens stops that stand behind an offset. -/
def stopOf (offset : Nat) (ts : List Token) : Nat := (ts.map stop).getLastD offset

theorem stopOf_cons (offset : Nat) (t : Token) (ts : List Token) :
    stopOf offset (t :: ts) = stopOf t.stop ts := by
  rw [stopOf, List.map_cons, List.getLastD_cons]
  rfl

theorem stopOf_of_ne_nil {ts : List Token} (h : ts ≠ []) (offset offset' : Nat) :
    stopOf offset ts = stopOf offset' ts := by
  obtain ⟨t, ts, rfl⟩ := List.exists_cons_of_ne_nil h
  rw [stopOf_cons, stopOf_cons]

theorem stopOf_ofValue (offset : Nat) (value : List Char) (ts : List Token) :
    stopOf offset (ofValue offset value ++ ts) = stopOf (offset + width value) ts := by
  cases value with
  | nil => rfl
  | cons c value => exact stopOf_cons ..

/-- **Up to a token.** The scanner finds the same tokens up to one if there are no more characters
than up to where it stops. -/
theorem scanFrom_up_to {m : Mode} {offset : Nat} {cs : List Char} {ts after : List Token}
    (h : scanFrom m offset cs = ts ++ after) :
    ∃ text rest, cs = text ++ rest ∧ scanFrom m offset text = ts ∧
      stopOf offset ts = offset + width text := by
  have hnone : ∀ m offset cs, ∃ text rest, cs = text ++ rest ∧ scanFrom m offset text = [] ∧
      stopOf offset [] = offset + width text :=
    fun m offset cs => ⟨[], cs, rfl, by rw [scanFrom], rfl⟩
  induction m, offset, cs using scan_induction generalizing ts with
  | nil m offset =>
    rw [scanFrom] at h
    obtain ⟨rfl, -⟩ := List.append_eq_nil_iff.mp h.symm
    exact hnone m offset []
  | space m offset c cs hspace ih =>
    rw [scanFrom_space offset cs hspace] at h
    rcases eq_or_ne ts [] with rfl | hne
    · exact hnone m offset _
    · obtain ⟨text, rest, rfl, hscan, hstop⟩ := ih h
      refine ⟨c :: text, rest, rfl, ?_, ?_⟩
      · rw [scanFrom_space offset text hspace, hscan]
      · rw [stopOf_of_ne_nil hne _ (offset + c.utf8Size), hstop, Text.width_cons, Nat.add_assoc]
  | comment m offset cs ih =>
    rw [scanFrom_comment] at h
    rcases eq_or_ne ts [] with rfl | hne
    · exact hnone m offset _
    · obtain ⟨text, rest, hcs, hscan, hstop⟩ := ih h
      obtain ⟨htake, hdrop⟩ := run_append_of_dropWhile hcs
      refine ⟨'#' :: cs.takeWhile isCommentPart ++ text, rest, ?_, ?_, ?_⟩
      · rw [List.append_assoc, ← hcs, List.cons_append, List.takeWhile_append_dropWhile]
      · rw [List.cons_append, scanFrom_comment, htake, hdrop, hscan]
      · rw [stopOf_of_ne_nil hne _ (offset + width ('#' :: cs.takeWhile isCommentPart)), hstop,
          Text.width_append, Nat.add_assoc]
  | value offset cs ih =>
    rw [scanFrom_value] at h
    cases ts with
    | nil => exact hnone .key offset _
    | cons colon us =>
      obtain ⟨rfl, hrest⟩ := List.cons.inj h
      rcases ofValue_append_cases hrest with rfl | ⟨us, rfl, hmore⟩
      · refine ⟨[':'], cs, rfl, ?_, rfl⟩
        rw [scanFrom_value, List.takeWhile_nil, List.dropWhile_nil, scanFrom]
        rfl
      · obtain ⟨text, rest, hcs, hscan, hstop⟩ := ih hmore
        obtain ⟨htake, hdrop⟩ := run_append_of_dropWhile hcs
        have hone : ':'.utf8Size = 1 := rfl
        refine ⟨':' :: cs.takeWhile isValuePart ++ text, rest, ?_, ?_, ?_⟩
        · rw [List.append_assoc, ← hcs, List.cons_append, List.takeWhile_append_dropWhile]
        · rw [List.cons_append, scanFrom_value, htake, hdrop, hscan]
        · rw [stopOf_cons, stopOf_ofValue, hstop, List.cons_append, Text.width_cons,
            Text.width_append, hone]
          omega
  | lexeme m offset c cs kind' hspace hcomment hkind hvalue ih =>
    rw [scanFrom_lexeme offset cs hspace hcomment hkind hvalue] at h
    cases ts with
    | nil => exact hnone m offset _
    | cons t us =>
      obtain ⟨rfl, hmore⟩ := List.cons.inj h
      obtain ⟨text, rest, hcs, hscan, hstop⟩ := ih hmore
      obtain ⟨htake, hdrop⟩ := run_append_of_dropWhile hcs
      refine ⟨c :: cs.takeWhile (continues c) ++ text, rest, ?_, ?_, ?_⟩
      · rw [List.append_assoc, ← hcs, List.cons_append, List.takeWhile_append_dropWhile]
      · have hlexeme : m.view (classify c ((cs.takeWhile (continues c) ++ text).takeWhile
            (continues c))) = kind' := by rw [htake, hkind]
        rw [List.cons_append, scanFrom_lexeme offset _ hspace hcomment hlexeme hvalue, htake, hdrop,
          hscan]
      · rw [stopOf_cons, hstop, Text.width_append, Nat.add_assoc]

-- ============================================================================
-- Windows
-- ============================================================================

/-- Outside of attribute lists, only a `{` leads into one. -/
theorem Mode.through_outside {ks : List TokenKind} (h : ∀ k ∈ ks, k ≠ .lBrace) :
    through .outside ks = .outside := by
  induction ks with
  | nil => rfl
  | cons k ks ih =>
    obtain ⟨hk, hks⟩ := List.forall_mem_cons.mp h
    have hafter : Mode.after .outside k = .outside := by
      cases k <;> first | rfl | exact absurd rfl hk
    show through (Mode.after .outside k) ks = .outside
    rw [hafter, ih hks]

/-- A text begins with the text of its first token if that is not behind a gap. -/
theorem exists_append_of_scan {text : String} {t : Token} {ts : List Token}
    (h : scan text = t :: ts) (hstart : t.start = 0) : ∃ more, text = t.text ++ more := by
  have hsplit : scan text = [] ++ t :: ts := h
  obtain ⟨pre, post, htext, hpre, -⟩ := piece_of_scan hsplit
  have hnil : pre = "" := by
    rw [← String.utf8ByteSize_eq_zero_iff, ← hpre, hstart]
  rw [hnil, String.empty_append] at htext
  exact ⟨post, htext⟩

/-- **Windows.** From where no attribute list is open, the stretch from one token to another is a
piece of the text, which begins with the first of them and has the same tokens. -/
theorem exists_window {source : String} {before ts after : List Token} {t : Token}
    (h : scan source = before ++ (t :: ts ++ after)) (ht : t.kind ≠ .text)
    (hopen : Mode.through .outside (before.map kind) = .outside) :
    ∃ text, ((LineIndex.ofText source).span t.start (stopOf t.stop ts)).textIn? source = some text ∧
      (scan text).map shape = (t :: ts).map shape ∧ ∃ more, text = t.text ++ more := by
  obtain ⟨front, c, rest, hcs, -, -, hstart, hrest⟩ := scanFrom_behind h ht
  rw [hopen] at hrest
  have hrun : scanFrom .outside t.start (c :: rest) = t :: ts ++ after := hrest
  obtain ⟨text, back, htext, hscan, hstop⟩ := scanFrom_up_to hrun
  rw [Nat.zero_add] at hstart
  rw [stopOf_cons] at hstop
  have hmoved : (scan (String.ofList text)).map (shift t.start) = t :: ts := by
    rw [scan, String.toList_ofList, ← scanFrom_add, Nat.add_zero, hscan]
  have hsource : source = String.ofList front ++ String.ofList text ++ String.ofList back := by
    rw [← String.toList_inj, hcs, htext]
    simp
  refine ⟨String.ofList text, ?_, ?_, ?_⟩
  · refine LineIndex.textIn?_of_piece hsource ?_ ?_
    · rw [hstart, utf8ByteSize_ofList]
    · rw [hstop, utf8ByteSize_ofList]
  · rw [← hmoved, List.map_map]
    rfl
  · obtain ⟨u, us, hfound, hfirst, -⟩ := List.map_eq_cons_iff.mp hmoved
    have hstarts : t.start + u.start = t.start := congrArg Token.start hfirst
    obtain ⟨more, hmore⟩ := exists_append_of_scan hfound (by omega)
    refine ⟨more, ?_⟩
    rw [hmore, ← hfirst]
    rfl

-- ============================================================================
-- Texts of tokens
-- ============================================================================

/-- Different characters that are lexemes by themselves are of different kinds. -/
theorem symbol_injective {c d : Char} (h : symbol c = symbol d) (hd : symbol d ≠ .invalid) :
    c = d := by
  unfold symbol at h hd
  split at hd <;> split at h <;> simp_all

section Texts

variable {source : String} {t : Token}

theorem exists_fits_of_mem (ht : t ∈ scan source) : ∃ before rest, t.Fits before rest := by
  obtain ⟨before, after, hscan⟩ := List.append_of_mem ht
  obtain ⟨-, post, -, -, hfits⟩ := piece_of_scan hscan
  exact ⟨before, post.toList, hfits⟩

theorem text_of_symbol (ht : t ∈ scan source) {c : Char} (hkind : t.kind = symbol c)
    (hc : symbol c ≠ .invalid) : t.text = String.singleton c := by
  obtain ⟨before, rest, hfits⟩ := exists_fits_of_mem ht
  obtain ⟨hident, htext, -, hkeyword⟩ := symbol_ne c
  have hword : ¬(t.kind = .ident ∨ t.kind.isKeyword = true) := by
    rw [hkind]
    cases hk : symbol c <;> simp_all [TokenKind.isKeyword]
  obtain ⟨d, hd, hsymbol⟩ := hfits.symbol hword (hkind ▸ symbol_ne_integer c) (hkind ▸ htext)
  rw [hd, symbol_injective (hsymbol.symm.trans hkind) hc]

theorem text_of_keyword (ht : t ∈ scan source) {k : Keyword} (hkind : t.kind = .keyword k) :
    t.text = k.text := by
  obtain ⟨before, rest, hfits⟩ := exists_fits_of_mem ht
  obtain ⟨-, htext, -⟩ := (hfits.keyword k).mp hkind
  have hspelled : k.text = t.text := by simpa using List.find?_some htext
  exact hspelled.symm

/-- No token but the end of a line has a newline in its text. -/
theorem newline_notMem_text (ht : t ∈ scan source) (hkind : t.kind ≠ .endOfLine) :
    '\n' ∉ t.text.toList := by
  obtain ⟨before, rest, hfits⟩ := exists_fits_of_mem ht
  by_cases hvalue : t.kind = .text
  · exact fun hmem => absurd ((hfits.value hvalue).1 _ hmem) (by decide)
  by_cases hinteger : t.kind = .integer
  · obtain ⟨c, digits, htext, hfirst, hdigits⟩ := (hfits.integer hinteger).1
    rw [htext, String.toList_ofList, List.mem_cons, not_or]
    refine ⟨?_, fun hmem => absurd (hdigits _ hmem) (by decide)⟩
    rintro rfl
    rcases hfirst with h | ⟨h, -⟩ <;> exact absurd h (by decide)
  by_cases hword : t.kind = .ident ∨ t.kind.isKeyword = true
  · obtain ⟨-, c, tail, htext, hstart, htail⟩ := hfits.word.mp hword
    rw [htext, String.toList_ofList, List.mem_cons, not_or]
    refine ⟨?_, fun hmem => absurd (htail _ hmem) (by decide)⟩
    rintro rfl
    exact absurd hstart (by decide)
  · obtain ⟨c, htext, hsymbol⟩ := hfits.symbol hword hinteger hvalue
    rw [htext, String.toList_singleton, List.mem_singleton]
    rintro rfl
    exact hkind hsymbol

/-- A text without an end of line among its tokens has no newline. -/
theorem newline_notMem_of_scan (h : ∀ t ∈ scan source, t.kind ≠ .endOfLine) :
    '\n' ∉ source.toList := by
  intro hmem
  obtain ⟨as, bs, hchars⟩ := List.append_of_mem hmem
  have hsource : source = String.ofList as ++ "\n" ++ String.ofList bs := by
    rw [← String.toList_inj, hchars]
    simp
  rw [hsource, scan_newline] at h
  exact h _ (List.mem_append_right _ List.mem_cons_self) rfl

end Texts

end TimedNet.Token
