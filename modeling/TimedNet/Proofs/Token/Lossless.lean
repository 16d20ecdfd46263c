/-
  TimedNet.Proofs.Token.Lossless

  Nothing of a text is lost between its tokens, and none of it is told twice. `Laid` says how tokens
  are laid out in characters: each stands right behind a gap of blanks and a comment, as long as its
  kind lets it be, and behind the last there is nothing but a gap. The scanner lays its tokens out
  like this from any mode on (`laid_scanFrom`); a text can then be cut at any of its tokens
  (`Laid.cut`), and all that `isLossless_scan` says of them is read off where it is cut.
-/
import TimedNet.Proofs.Token.Lines
import TimedNet.Proofs.Token.Printing

namespace TimedNet.Token

open Text (width)

-- ============================================================================
-- Gaps and places of tokens
-- ============================================================================

/-- What may stand between two tokens: blanks, and behind them at most a comment, which goes on up
to the next newline or the end of the text. -/
inductive IsGap : List Char → List Char → Prop where
  | nil {rest : List Char} : IsGap [] rest
  | space {c : Char} {gap rest : List Char} (hc : isSpace c = true) (h : IsGap gap rest) :
      IsGap (c :: gap) rest
  | comment {comment rest : List Char} (hcomment : '\n' ∉ comment)
      (hrest : ∀ c ∈ rest.head?, c = '\n') : IsGap ('#' :: comment) rest

/-- The mode of the scanner behind tokens. -/
def Mode.behind (ts : List Token) : Mode := ts.foldl (fun m t => m.after t.kind) .outside

theorem Mode.behind_concat (ts : List Token) (t : Token) :
    behind (ts ++ [t]) = (behind ts).after t.kind := List.foldl_concat _ _ _ _

/-- How a token goes with its text, with the tokens before it and with the characters behind it: it
is of the kind that its text spells, and is not gone on with. -/
structure Fits (before : List Token) (t : Token) (rest : List Char) : Prop where
  nonempty : t.text ≠ ""
  extent : t.stop = t.start + t.text.utf8ByteSize
  /-- Names and keywords are what is spelled as a word, values apart. -/
  word : t.kind = .ident ∨ t.kind.isKeyword = true ↔ t.kind ≠ .text ∧ IsWord t.text
  wordEnd : t.kind = .ident ∨ t.kind.isKeyword = true → ∀ c ∈ rest.head?, isNamePart c = false
  /-- A keyword is one that is spelled where no key is due. -/
  keyword : ∀ k, t.kind = .keyword k ↔
    t.kind ≠ .text ∧ Keyword.ofText? t.text = some k ∧ Mode.behind before ≠ .key
  integer : t.kind = .integer → IsNumber t.text ∧ ∀ c ∈ rest.head?, c.isDigit = false
  /-- A value stands right behind a `:`. -/
  value : t.kind = .text → IsRawValue t.text ∧ (∀ c ∈ rest.head?, isValuePart c = false) ∧
    ∃ u ∈ before.getLast?, u.kind = .colon ∧ u.stop = t.start
  /-- Any other token is one character. -/
  symbol : ¬(t.kind = .ident ∨ t.kind.isKeyword = true) → t.kind ≠ .integer → t.kind ≠ .text →
    ∃ c, t.text = String.singleton c ∧ t.kind = Token.symbol c

/-- How tokens that follow others are laid out in characters that stand at an offset. -/
inductive Laid : List Token → Nat → List Char → List Token → Prop where
  | done {before : List Token} {offset : Nat} {cs : List Char} (hgap : IsGap cs []) :
      Laid before offset cs []
  | token {before : List Token} {offset : Nat} {cs : List Char} {t : Token} {ts : List Token}
      (gap rest : List Char) (hcs : cs = gap ++ (t.text.toList ++ rest))
      (hgap : IsGap gap (t.text.toList ++ rest)) (hstart : t.start = offset + width gap)
      (hfits : t.Fits before rest) (h : Laid (before ++ [t]) t.stop rest ts) :
      Laid before offset cs (t :: ts)

-- ============================================================================
-- What the scanner cuts off
-- ============================================================================

theorem utf8ByteSize_ofList (cs : List Char) : (String.ofList cs).utf8ByteSize = width cs := by
  rw [← Text.width_toList, String.toList_ofList]

theorem extent_ofList (offset : Nat) (cs : List Char) :
    offset + width cs = offset + (String.ofList cs).utf8ByteSize := by
  rw [utf8ByteSize_ofList]

theorem isWord_of_ofText? {text : String} {k : Keyword} (h : Keyword.ofText? text = some k) :
    IsWord text := by
  have htext : k.text = text := by simpa using List.find?_some h
  exact htext ▸ isWord_keyword k

theorem isNameStart_of_isWord {c : Char} {tail : List Char}
    (h : IsWord (String.ofList (c :: tail))) : isNameStart c = true := by
  obtain ⟨d, ds, hchars, hstart, -⟩ := h
  obtain ⟨rfl, -⟩ := List.cons.inj (String.ofList_injective hchars)
  exact hstart

/-- A lexeme is a word, a number or a character by itself. -/
theorem lexeme_cases (c : Char) (cs : List Char) :
    isNameStart c = true ∨
      isNameStart c = false ∧ (c.isDigit = true ∨ (c = '-' ∧ cs.takeWhile (continues c) ≠ [])) ∨
      isNameStart c = false ∧ cs.takeWhile (continues c) = [] ∧ classify c [] = Token.symbol c := by
  by_cases hstart : isNameStart c = true
  · exact Or.inl hstart
  have hstart : isNameStart c = false := by simpa using hstart
  refine Or.inr ?_
  by_cases hnumber : c.isDigit = true ∨ (c = '-' ∧ cs.takeWhile (continues c) ≠ [])
  · exact Or.inl ⟨hstart, hnumber⟩
  obtain ⟨hdigit, hdash⟩ := not_or.mp hnumber
  have hdigit : c.isDigit = false := by simpa using hdigit
  refine Or.inr ⟨hstart, ?_, by simp [classify, hstart, hdigit]⟩
  by_contra hne
  -- only a `-` is gone on with here, and only by digits
  have hcontinues : ∀ d, continues c d = false := by
    intro d
    have hc : c ≠ '-' := fun hc => hdash ⟨hc, hne⟩
    simp [continues, hstart, hdigit, hc]
  apply hne
  cases cs <;> simp [hcontinues]

/-- No character by itself is a number. -/
theorem symbol_ne_integer (c : Char) : Token.symbol c ≠ .integer := by
  unfold Token.symbol
  split <;> simp

theorem view_of_ne_keyword (m : Mode) {k : TokenKind} (hk : ∀ c, k ≠ .keyword c) :
    m.view k = k := by
  cases k with
  | keyword c => exact absurd rfl (hk c)
  | _ => cases m <;> rfl

theorem view_wordKind (m : Mode) (text : String) :
    m.view (wordKind text) = if m = .key then .ident else wordKind text := by
  unfold wordKind
  split <;> cases m <;> rfl

theorem view_wordKind_cases (m : Mode) (text : String) :
    m.view (wordKind text) = .ident ∨ (m.view (wordKind text)).isKeyword = true := by
  rw [view_wordKind, wordKind]
  split
  · exact Or.inl rfl
  · split
    · exact Or.inr rfl
    · exact Or.inl rfl

theorem wordKind_eq_keyword_iff {text : String} {k : Keyword} :
    wordKind text = .keyword k ↔ Keyword.ofText? text = some k := by
  unfold wordKind
  split <;> simp_all

section Fits

variable {before : List Token} {offset : Nat} {c : Char} {tail rest : List Char}

theorem ofList_cons_ne (c : Char) (tail : List Char) : String.ofList (c :: tail) ≠ "" := by
  intro h
  have hchars := congrArg String.toList h
  rw [String.toList_ofList] at hchars
  exact absurd hchars (by simp)

/-- A word stands for its keyword unless a key is due. -/
theorem fits_word (hstart : isNameStart c = true) (htail : ∀ d ∈ tail, isNamePart d = true)
    (hrest : ∀ d ∈ rest.head?, isNamePart d = false) :
    Fits before ⟨(Mode.behind before).view (wordKind (String.ofList (c :: tail))),
      String.ofList (c :: tail), offset, offset + width (c :: tail)⟩ rest := by
  have hview := view_wordKind (Mode.behind before) (String.ofList (c :: tail))
  have hword := view_wordKind_cases (Mode.behind before) (String.ofList (c :: tail))
  generalize hkind : (Mode.behind before).view (wordKind (String.ofList (c :: tail))) = kind
  rw [hkind] at hview hword
  have hne : kind ≠ .text ∧ kind ≠ .integer := by
    constructor <;> rintro rfl <;> exact absurd hword (by decide)
  refine ⟨ofList_cons_ne c tail, extent_ofList offset _, ?_, fun _ => hrest, fun k => ?_,
    fun h => absurd h hne.2, fun h => absurd h hne.1, fun h => absurd hword h⟩
  · exact iff_of_true hword ⟨hne.1, c, tail, rfl, hstart, htail⟩
  · show kind = .keyword k ↔ _
    by_cases hkey : Mode.behind before = .key
    · rw [hview, if_pos hkey]
      simp [hkey]
    · have hspells : kind = .keyword k ↔ Keyword.ofText? (String.ofList (c :: tail)) = some k := by
        rw [hview, if_neg hkey, wordKind_eq_keyword_iff]
      rw [hspells]
      exact ⟨fun h => ⟨hne.1, h, hkey⟩, fun h => h.2.1⟩

/-- A token whose text does not begin as a word. -/
theorem fits_other (hstart : isNameStart c = false) {kind : TokenKind}
    (hkind : kind ≠ .ident ∧ kind ≠ .text ∧ ∀ k, kind ≠ .keyword k)
    (hinteger : kind = .integer → IsNumber (String.ofList (c :: tail)) ∧
      ∀ d ∈ rest.head?, d.isDigit = false)
    (hsymbol : kind ≠ .integer → tail = [] ∧ kind = Token.symbol c) :
    Fits before ⟨kind, String.ofList (c :: tail), offset, offset + width (c :: tail)⟩ rest := by
  obtain ⟨hident, htext, hkeyword⟩ := hkind
  have hnone : ¬(kind = .ident ∨ kind.isKeyword = true) := by
    rintro (h | h)
    · exact hident h
    · cases kind with
      | keyword k => exact hkeyword k rfl
      | _ => exact absurd h (by decide)
  have hword : ¬ IsWord (String.ofList (c :: tail)) := by
    intro h
    rw [isNameStart_of_isWord h] at hstart
    exact absurd hstart (by decide)
  refine ⟨ofList_cons_ne c tail, extent_ofList offset _, iff_of_false hnone fun h => hword h.2,
    fun h => absurd h hnone, fun k => ?_, hinteger, fun h => absurd h htext, fun _ hint _ => ?_⟩
  · exact iff_of_false (hkeyword k) fun h => hword (isWord_of_ofText? h.2.1)
  · obtain ⟨rfl, hkind⟩ := hsymbol hint
    exact ⟨c, rfl, hkind⟩

/-- The longest lexeme. -/
theorem fits_lexeme {cs : List Char} {kind : TokenKind}
    (hkind : (Mode.behind before).view (classify c (cs.takeWhile (continues c))) = kind) :
    Fits before ⟨kind, String.ofList (c :: cs.takeWhile (continues c)), offset,
      offset + width (c :: cs.takeWhile (continues c))⟩ (cs.dropWhile (continues c)) := by
  subst hkind
  have htail : ∀ d ∈ cs.takeWhile (continues c), continues c d = true := fun d hd =>
    List.mem_takeWhile_imp hd
  have hrest : ∀ d ∈ (cs.dropWhile (continues c)).head?, continues c d = false := head_dropWhile
  rcases lexeme_cases c cs with hstart | ⟨hstart, hnumber⟩ | ⟨hstart, hnil, hsymbol⟩
  · obtain ⟨-, -, hcontinues, hclass⟩ := nameStart_lexeme hstart (cs.takeWhile (continues c))
    rw [hclass]
    exact fits_word hstart (fun d hd => hcontinues d ▸ htail d hd)
      fun d hd => hcontinues d ▸ hrest d hd
  · obtain ⟨-, -, hcontinues, hclass⟩ := number_lexeme hnumber
    rw [hclass, view_of_ne_keyword _ (by simp)]
    have hdigits : IsNumber (String.ofList (c :: cs.takeWhile (continues c))) :=
      ⟨c, _, rfl, hnumber, fun d hd => hcontinues d ▸ htail d hd⟩
    exact fits_other hstart (by simp) (fun _ => ⟨hdigits, fun d hd => hcontinues d ▸ hrest d hd⟩)
      fun h => absurd rfl h
  · obtain ⟨hident, htext, -, hkeyword⟩ := symbol_ne c
    rw [hnil, hsymbol, view_of_ne_keyword _ hkeyword]
    exact fits_other hstart ⟨hident, htext, hkeyword⟩ (fun h => absurd h (symbol_ne_integer c))
      fun _ => ⟨rfl, rfl⟩

/-- A value behind the `:` of its key. -/
theorem fits_value {colon : Token} (hkind : colon.kind = .colon) (hstop : colon.stop = offset)
    (hvalue : ∀ d ∈ c :: tail, isValuePart d = true)
    (hrest : ∀ d ∈ rest.head?, isValuePart d = false) :
    Fits (before ++ [colon])
      ⟨.text, String.ofList (c :: tail), offset, offset + width (c :: tail)⟩ rest := by
  refine ⟨ofList_cons_ne c tail, extent_ofList offset _, by simp [TokenKind.isKeyword],
    by simp [TokenKind.isKeyword], by simp, by simp, fun _ => ⟨?_, hrest, colon, ?_, hkind, hstop⟩,
    fun _ _ h => absurd rfl h⟩
  · intro d hd
    rw [String.toList_ofList] at hd
    exact hvalue d hd
  · exact List.getLast?_concat

end Fits

-- ============================================================================
-- The scanner's tokens
-- ============================================================================

/-- Where no blank and no comment begins, there is no gap. -/
theorem IsGap.eq_nil {gap rest : List Char} (h : IsGap gap rest)
    (hhead : ∀ c ∈ (gap ++ rest).head?, c = '\n') : gap = [] := by
  cases h with
  | nil => rfl
  | space hc h =>
    rw [hhead _ rfl] at hc
    exact absurd hc (by decide)
  | comment hcomment hrest => exact absurd (hhead _ rfl) (by decide)

namespace Laid

variable {before ts : List Token} {offset : Nat} {cs : List Char}

theorem space {c : Char} (hc : isSpace c = true) (h : Laid before (offset + c.utf8Size) cs ts) :
    Laid before offset (c :: cs) ts := by
  cases h with
  | done hgap => exact done (.space hc hgap)
  | token gap rest hcs hgap hstart hfits h =>
    refine token (c :: gap) rest (by rw [hcs]; rfl) (.space hc hgap) ?_ hfits h
    rw [hstart, Text.width_cons, Nat.add_assoc]

/-- Behind a comment there is a newline, which is no gap. -/
theorem comment
    (h : Laid before (offset + width ('#' :: cs.takeWhile isCommentPart))
      (cs.dropWhile isCommentPart) ts) :
    Laid before offset ('#' :: cs) ts := by
  have hnewline : '\n' ∉ cs.takeWhile isCommentPart := fun hmem =>
    absurd (List.mem_takeWhile_imp hmem) (by decide)
  have hhead : ∀ c ∈ (cs.dropWhile isCommentPart).head?, c = '\n' := by
    intro c hc
    simpa [isCommentPart] using head_dropWhile c hc
  have hwhole : '#' :: cs = '#' :: cs.takeWhile isCommentPart ++ cs.dropWhile isCommentPart := by
    rw [List.cons_append, List.takeWhile_append_dropWhile]
  rw [hwhole]
  generalize cs.takeWhile isCommentPart = skipped at hnewline h ⊢
  generalize cs.dropWhile isCommentPart = left at hhead h ⊢
  cases h with
  | done hgap =>
    obtain rfl := hgap.eq_nil (by rwa [List.append_nil])
    rw [List.append_nil]
    exact done (.comment hnewline (by simp))
  | token gap rest hcs hgap hstart hfits h =>
    obtain rfl := hgap.eq_nil (hcs ▸ hhead)
    rw [List.nil_append] at hcs
    exact token ('#' :: skipped) rest (by rw [hcs]) (.comment hnewline (hcs ▸ hhead)) hstart hfits h

/-- A token stands where the characters begin. -/
theorem lexeme {t : Token} (text : List Char) {rest : List Char}
    (htext : t.text = String.ofList text) (hcs : cs = text ++ rest) (hstart : t.start = offset)
    (hfits : t.Fits before rest)
    (h : Laid (before ++ [t]) t.stop rest ts) : Laid before offset cs (t :: ts) := by
  refine token [] rest ?_ .nil hstart hfits h
  rw [htext, String.toList_ofList]
  exact hcs

/-- Behind the `:` of a key comes its value, if there is one. -/
theorem value {colon : Token} (hkind : colon.kind = .colon) {v rest : List Char}
    (hvalue : ∀ d ∈ v, isValuePart d = true) (hrest : ∀ d ∈ rest.head?, isValuePart d = false)
    (h : ∀ before', Mode.behind before' = Mode.behind (before ++ [colon]) →
      Laid before' (colon.stop + width v) rest ts) :
    Laid (before ++ [colon]) colon.stop (v ++ rest) (ofValue colon.stop v ++ ts) := by
  cases v with
  | nil => exact h _ rfl
  | cons c tail =>
    have hbehind : ∀ m : Mode, m.after .text = m := by rintro (_ | _ | _) <;> rfl
    refine lexeme (c :: tail) rfl rfl rfl (fits_value hkind rfl hvalue hrest) (h _ ?_)
    rw [Mode.behind_concat, hbehind]

end Laid

/-- **The scanner.** Its tokens are laid out in the characters, whatever was scanned before. -/
theorem laid_scanFrom (before : List Token) (offset : Nat) (cs : List Char) :
    Laid before offset cs (scanFrom (Mode.behind before) offset cs) := by
  generalize hmode : Mode.behind before = m
  induction m, offset, cs using scan_induction generalizing before with
  | nil m offset =>
    rw [scanFrom]
    exact .done .nil
  | space m offset c cs hspace ih =>
    rw [scanFrom_space offset cs hspace]
    exact (ih before hmode).space hspace
  | comment m offset cs ih =>
    rw [scanFrom_comment]
    exact (ih before hmode).comment
  | value offset cs ih =>
    have hcolon := @fits_lexeme before offset ':' cs _ rfl
    rw [takeWhile_continues_colon, dropWhile_continues_colon, hmode] at hcolon
    have hvalue : ∀ d ∈ cs.takeWhile isValuePart, isValuePart d = true := fun d hd =>
      List.mem_takeWhile_imp hd
    have hbehind : Mode.behind (before ++ [⟨.colon, ":", offset, offset + 1⟩]) = .separator := by
      rw [Mode.behind_concat, hmode]
      rfl
    have hmore : ∀ before', Mode.behind before' = _ → _ := fun before' h =>
      ih before' (h.trans hbehind)
    have hlaid := Laid.value rfl hvalue head_dropWhile hmore
    rw [List.takeWhile_append_dropWhile] at hlaid
    rw [scanFrom_value]
    exact .lexeme [':'] rfl rfl rfl hcolon hlaid
  | lexeme m offset c cs kind hspace hcomment hkind hvalue ih =>
    subst hmode
    rw [scanFrom_lexeme offset cs hspace hcomment hkind hvalue]
    have hcut : c :: cs = c :: cs.takeWhile (continues c) ++ cs.dropWhile (continues c) := by
      rw [List.cons_append, List.takeWhile_append_dropWhile]
    exact .lexeme _ rfl hcut rfl (fits_lexeme hkind) (ih _ (Mode.behind_concat before _))

-- ============================================================================
-- Cutting a text at its tokens
-- ============================================================================

namespace Laid

variable {before ts : List Token} {offset : Nat} {cs : List Char}

theorem le_start (h : Laid before offset cs ts) : ∀ t ∈ ts, offset ≤ t.start := by
  induction h with
  | done hgap => simp
  | token gap rest hcs hgap hstart hfits h ih =>
    have hextent := hfits.extent
    intro u hu
    rcases List.mem_cons.mp hu with rfl | hu
    · omega
    · have hle := ih u hu
      omega

theorem start_le_stop (h : Laid before offset cs ts) : ∀ t ∈ ts, t.start ≤ t.stop := by
  induction h with
  | done hgap => simp
  | token gap rest hcs hgap hstart hfits h ih =>
    refine List.forall_mem_cons.mpr ⟨?_, ih⟩
    rw [hfits.extent]
    exact Nat.le_add_right _ _

theorem pairwise (h : Laid before offset cs ts) : ts.Pairwise fun t u => t.stop ≤ u.start := by
  induction h with
  | done hgap => exact .nil
  | token gap rest hcs hgap hstart hfits h ih => exact .cons h.le_start ih

theorem leading (h : Laid before offset cs ts) : ∃ gap rest, cs = gap ++ rest ∧ IsGap gap rest ∧
    offset + width gap = (ts.map start).headD (offset + width cs) := by
  cases h with
  | done hgap => exact ⟨cs, [], (List.append_nil cs).symm, hgap, rfl⟩
  | token gap rest hcs hgap hstart hfits h => exact ⟨gap, _, hcs, hgap, hstart.symm⟩

/-- Tokens that are laid out can be cut into two runs, one behind the other. -/
theorem cut {us : List Token} (h : Laid before offset cs (ts ++ us))
    (hoffset : offset = (before.map stop).getLastD 0) :
    ∃ done rest, cs = done ++ rest ∧ Laid (before ++ ts) (offset + width done) rest us ∧
      offset + width done = ((before ++ ts).map stop).getLastD 0 := by
  induction ts generalizing before offset cs with
  | nil =>
    rw [List.append_nil]
    exact ⟨[], cs, rfl, h, hoffset⟩
  | cons t ts ih =>
    cases h with
    | token gap rest hcs hgap hstart hfits h =>
      have hstop : t.stop = ((before ++ [t]).map stop).getLastD 0 := by
        rw [List.map_append, List.map_singleton, List.getLastD_concat]
      have hextent : t.stop = offset + width (gap ++ t.text.toList) := by
        rw [hfits.extent, hstart, Text.width_append, Text.width_toList, Nat.add_assoc]
      obtain ⟨more, rest', rfl, hlaid, hlast⟩ := ih h hstop
      rw [List.append_assoc, List.singleton_append] at hlaid hlast
      have hwidth : t.stop + width more = offset + width (gap ++ t.text.toList ++ more) := by
        rw [hextent, Nat.add_assoc, ← Text.width_append]
      rw [hwidth] at hlaid hlast
      exact ⟨gap ++ t.text.toList ++ more, rest', by simp [hcs], hlaid, hlast⟩

end Laid

/-- A text that is cut up into tokens without loss. -/
structure IsLossless (source : String) (ts : List Token) : Prop where
  /-- A token is a piece of the text, between whole characters, and fits where it stands. -/
  piece : ∀ before t after, ts = before ++ t :: after → ∃ pre post : String,
    source = pre ++ t.text ++ post ∧ t.start = pre.utf8ByteSize ∧ t.Fits before post.toList
  ordered : ts.Pairwise fun t u => t.stop ≤ u.start
  /-- From where a token stops, or from the beginning, to where the next one starts, or to the end,
  there is a gap. -/
  gap : ∀ before after, ts = before ++ after → ∃ pre gap post : String,
    source = pre ++ gap ++ post ∧ IsGap gap.toList post.toList ∧
      pre.utf8ByteSize = (before.map stop).getLastD 0 ∧
      (pre ++ gap).utf8ByteSize = (after.map start).headD source.utf8ByteSize
  /-- Each newline is a token of its own, and in no other. -/
  newline : ∀ pre post : String, source = pre ++ "\n" ++ post →
    ts.filter (fun t => t.start ≤ pre.utf8ByteSize ∧ pre.utf8ByteSize < t.stop) =
      [⟨.endOfLine, "\n", pre.utf8ByteSize, pre.utf8ByteSize + 1⟩]
  endOfLine : ∀ t ∈ ts, t.kind = .endOfLine → t.text = "\n"

/-- Only the token of a newline stands over it. -/
theorem filter_scan_newline (a b : String) :
    (scan (a ++ "\n" ++ b)).filter
        (fun t => t.start ≤ a.utf8ByteSize ∧ a.utf8ByteSize < t.stop) =
      [⟨.endOfLine, "\n", a.utf8ByteSize, a.utf8ByteSize + 1⟩] := by
  have hbefore : (scan a).filter
      (fun t => t.start ≤ a.utf8ByteSize ∧ a.utf8ByteSize < t.stop) = [] := by
    rw [List.filter_eq_nil_iff]
    intro t ht
    have hle := (le_width_of_mem_scanFrom ht).2
    rw [Nat.zero_add, Text.width_toList] at hle
    simp only [decide_eq_true_eq]
    omega
  have hbehind : ((scan b).map (shift (a.utf8ByteSize + 1))).filter
      (fun t => t.start ≤ a.utf8ByteSize ∧ a.utf8ByteSize < t.stop) = [] := by
    rw [List.filter_eq_nil_iff]
    intro t ht
    obtain ⟨u, -, rfl⟩ := List.mem_map.mp ht
    have hstart : a.utf8ByteSize + 1 ≤ (shift (a.utf8ByteSize + 1) u).start := Nat.le_add_right _ _
    simp only [decide_eq_true_eq]
    omega
  rw [scan_newline, List.filter_append, hbefore, List.filter_cons_of_pos (by simp), hbehind]
  rfl

section Scan

variable {source : String} {before : List Token}

theorem laid_scan (source : String) : Laid [] 0 source.toList (scan source) :=
  laid_scanFrom [] 0 source.toList

theorem piece_of_scan {t : Token} {after : List Token} (hts : scan source = before ++ t :: after) :
    ∃ pre post : String,
      source = pre ++ t.text ++ post ∧ t.start = pre.utf8ByteSize ∧ t.Fits before post.toList := by
  obtain ⟨done, left, hdone, hlaid, -⟩ := (hts ▸ laid_scan source).cut rfl
  cases hlaid with
  | token gap rest hcs hgap hstart hfits h =>
    refine ⟨String.ofList (done ++ gap), String.ofList rest, ?_, ?_, ?_⟩
    · rw [← String.toList_inj, hdone, hcs]
      simp
    · rw [hstart, utf8ByteSize_ofList, Text.width_append, Nat.zero_add]
    · rwa [String.toList_ofList]

theorem gap_of_scan {after : List Token} (hts : scan source = before ++ after) :
    ∃ pre gap post : String, source = pre ++ gap ++ post ∧ IsGap gap.toList post.toList ∧
      pre.utf8ByteSize = (before.map stop).getLastD 0 ∧
      (pre ++ gap).utf8ByteSize = (after.map start).headD source.utf8ByteSize := by
  obtain ⟨done, left, hdone, hlaid, hlast⟩ := (hts ▸ laid_scan source).cut rfl
  obtain ⟨gap, rest, rfl, hgap, hstart⟩ := hlaid.leading
  rw [Nat.zero_add] at hlast hstart
  refine ⟨String.ofList done, String.ofList gap, String.ofList rest, ?_, ?_, ?_, ?_⟩
  · rw [← String.toList_inj, hdone]
    simp
  · rwa [String.toList_ofList, String.toList_ofList]
  · rw [utf8ByteSize_ofList]
    exact hlast
  · rw [← String.ofList_append, utf8ByteSize_ofList, Text.width_append, hstart,
      ← Text.width_append, ← hdone, Text.width_toList]

theorem text_of_endOfLine {t : Token} (ht : t ∈ scan source) (hkind : t.kind = .endOfLine) :
    t.text = "\n" := by
  obtain ⟨before, after, hts⟩ := List.append_of_mem ht
  obtain ⟨pre, post, -, -, hfits⟩ := piece_of_scan hts
  obtain ⟨c, htext, hsymbol⟩ := hfits.symbol (by simp [hkind, TokenKind.isKeyword])
    (by simp [hkind]) (by simp [hkind])
  rw [htext, eq_newline_of_symbol (hsymbol.symm.trans hkind)]
  rfl

/-- **Lossless scanning.** Whatever is written, its tokens are pieces of it, each as long as its
kind lets it be, in order and apart; there are only blanks and comments between them, and each
newline is one token. -/
theorem isLossless_scan (source : String) : IsLossless source (scan source) where
  piece _ _ _ hts := piece_of_scan hts
  ordered := (laid_scan source).pairwise
  gap _ _ hts := gap_of_scan hts
  newline pre post hsource := by
    rw [hsource]
    exact filter_scan_newline pre post
  endOfLine _ ht hkind := text_of_endOfLine ht hkind

end Scan

end TimedNet.Token
