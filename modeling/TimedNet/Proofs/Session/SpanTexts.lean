/-
  TimedNet.Proofs.Session.SpanTexts

  The spans of a network that was read slice back to what they describe. An attribute's spans are
  those of its key and of all that is written for its value (`Line.IsCut.isWritten`); the span of a
  constraint is that of the words of its link, and the span of a declaration that of all words of
  its line, which are pieces of the text that have no other words
  (`Line.IsCut.slicesBack`, `Line.IsCut.isLineOf`).
-/
import TimedNet.Proofs.Session.AttributeWords
import TimedNet.Proofs.Session.LineTokens
import TimedNet.Proofs.Session.WellFormed
import TimedNet.Proofs.Token.Entries

namespace TimedNet

open Token (scan Mode)

-- ============================================================================
-- Attributes
-- ============================================================================

/-- How an attribute is written in a text, and the spans of its key and of what is written for its
value. -/
structure Attribute.IsWritten (a : Attribute) (source pre gap raw post : String) : Prop where
  entry : Token.IsEntry source pre a.key gap raw post
  value : a.value = Text.trim raw
  keySpan : a.keySpan =
    (LineIndex.ofText source).span pre.utf8ByteSize (pre ++ a.key).utf8ByteSize
  valueSpan : a.valueSpan =
    (LineIndex.ofText source).span (pre ++ a.key ++ gap ++ ":").utf8ByteSize
      (pre ++ a.key ++ gap ++ ":" ++ raw).utf8ByteSize

/-- The spans of an attribute slice back to its key, and to what is written for its value: nothing
if the value is absent. -/
structure Attribute.SlicesBack (a : Attribute) (source : String) : Prop where
  key : a.keySpan.textIn? source = some a.key
  value : ∃ raw, a.valueSpan.textIn? source = some raw ∧ Text.trim raw = a.value ∧
    (raw = "" ↔ a.valueSpan.isEmpty = true) ∧
    ∃ pre gap post, a.IsWritten source pre gap raw post

theorem Attribute.IsWritten.slicesBack {a : Attribute} {source pre gap raw post : String}
    (h : a.IsWritten source pre gap raw post) : a.SlicesBack source := by
  have hkey : source = pre ++ a.key ++ (gap ++ ":" ++ raw ++ post) := by
    rw [h.entry.split]
    simp only [String.append_assoc]
  refine ⟨?_, raw, ?_, h.value.symm, ?_, pre, gap, post, h⟩
  · rw [h.keySpan]
    exact LineIndex.textIn?_of_piece hkey rfl String.utf8ByteSize_append
  · rw [h.valueSpan]
    exact LineIndex.textIn?_of_piece h.entry.split rfl String.utf8ByteSize_append
  · have hsize := congrArg String.utf8ByteSize h.entry.split
    rw [String.utf8ByteSize_append, String.utf8ByteSize_append] at hsize
    have hraw : (pre ++ a.key ++ gap ++ ":" ++ raw).utf8ByteSize =
        (pre ++ a.key ++ gap ++ ":").utf8ByteSize + raw.utf8ByteSize := String.utf8ByteSize_append
    rw [h.valueSpan, LineIndex.isEmpty_span_iff (by omega) (by omega),
      ← String.utf8ByteSize_eq_zero_iff]
    omega

/-- **Attributes of a line.** They are written in the text where the line has their words. -/
theorem Line.IsCut.isWritten {source : String} {before ts after : List Token} {l : Line}
    (h : l.IsCut source before ts after) {a : Attribute} (ha : a.SpelledIn l.words) :
    ∃ pre gap raw post, a.IsWritten source pre gap raw post := by
  obtain ⟨front, run, next, back, hsplit, hspelled, hmode⟩ := ha
  obtain ⟨us, vs, rfl, rfl, hvs⟩ := List.map_eq_append_iff.mp (h.words.trans hsplit)
  obtain ⟨ks, ws, rfl, hks, hws⟩ := List.map_eq_append_iff.mp hvs
  obtain ⟨next, ws, rfl, rfl, -⟩ := List.map_eq_cons_iff.mp hws
  have hscan : scan source = before ++ us ++ (ks ++ next :: (ws ++ after)) := by
    rw [h.tokens]
    simp
  cases hspelled with
  | valued hkey hcolon hvalue hnext =>
    obtain ⟨key, ks, rfl, rfl, hbehind⟩ := List.map_eq_cons_iff.mp hks
    obtain ⟨colon, ks, rfl, rfl, hlast⟩ := List.map_eq_cons_iff.mp hbehind
    obtain ⟨value, ks, rfl, rfl, hnone⟩ := List.map_eq_cons_iff.mp hlast
    obtain rfl := List.map_eq_nil_iff.mp hnone
    obtain ⟨pre, gap, post, hentry, hstart, hstop, hbegin, hend⟩ :=
      Token.exists_entry_of_value hscan hcolon hvalue hnext
    refine ⟨pre, gap, value.text, post, hentry, rfl, ?_, ?_⟩
    · show (LineIndex.ofText source).span key.start key.stop = _
      rw [hstart, hstop]
      rfl
    · show (LineIndex.ofText source).span value.start value.stop = _
      rw [hbegin, hend]
      rfl
  | bare hkey hcolon hnext =>
    obtain ⟨key, ks, rfl, rfl, hlast⟩ := List.map_eq_cons_iff.mp hks
    obtain ⟨colon, ks, rfl, rfl, hnone⟩ := List.map_eq_cons_iff.mp hlast
    obtain rfl := List.map_eq_nil_iff.mp hnone
    have hmode' : Mode.through .outside ((before ++ us ++ [key]).map Token.kind) = .key := by
      have hfront : Mode.through .outside (us.map Token.kind) = .key := by
        rw [← hmode, kinds, List.map_map]
        rfl
      have hident : key.kind = .ident := hkey
      rw [List.map_append, List.map_append, Mode.through_append, Mode.through_append, h.outside,
        hfront, List.map_singleton, hident]
      rfl
    obtain ⟨pre, gap, post, hentry, hstart, hstop, hbegin⟩ :=
      Token.exists_entry_of_no_value hscan hmode' hcolon hnext
    refine ⟨pre, gap, "", post, hentry, rfl, ?_, ?_⟩
    · show (LineIndex.ofText source).span key.start key.stop = _
      rw [hstart, hstop]
      rfl
    · show (LineIndex.ofText source).span next.start next.start = _
      rw [hbegin, String.append_empty]
      rfl

-- ============================================================================
-- Constraints
-- ============================================================================

/-- The tokens of a constraint: the names of its process and event around a `@`, and a `?` behind
them if it is weak. -/
def SyncConstraint.tokens (s : Store) (c : SyncConstraint) : List Shape :=
  [(.ident, s.nameOf c.process), (.atSign, "@"), (.ident, s.nameOf c.event)] ++
    match c.strength with
    | .strong => []
    | .weak => [(.question, "?")]

/-- The spans of the constraints of a synchronization. -/
def Item.constraintSpans : Item → List Span
  | .sync constraints => constraints.map SyncConstraint.span
  | _ => []

/-- The span of a constraint slices back to its tokens. -/
def SyncConstraint.SlicesBack (s : Store) (source : String) (c : SyncConstraint) : Prop :=
  ∃ text, c.span.textIn? source = some text ∧ (scan text).map Token.shape = c.tokens s

theorem Position.max_eq_right {p q : Position} (h : p ≤ q) : max p q = q := by
  rw [Std.max_eq_if]
  split
  · next hle => exact Position.le_antisymm h hle
  · rfl

/-- Of two spans that neither begin nor end the other way round, the cover goes from the one to the
other. -/
theorem Span.cover_of_le {s t : Span} (hstart : s.start ≤ t.start) (hstop : s.stop ≤ t.stop) :
    s.cover t = ⟨s.start, t.stop⟩ := by
  rw [cover, Std.LawfulOrderLeftLeaningMin.min_eq_left _ _ hstart, Position.max_eq_right hstop]

/-- A word that stands behind another neither begins nor ends before it. -/
theorem InOrder.le_of_sublist {ws : List Word} (h : InOrder ws) {w v : Word}
    (hsublist : [w, v].Sublist ws) :
    w.span.start ≤ v.span.start ∧ w.span.stop ≤ v.span.stop := by
  obtain ⟨hordered, hpairwise⟩ := h.sublist hsublist
  have hapart : w.span.stop ≤ v.span.start := (List.pairwise_cons.mp hpairwise).1 v (by simp)
  exact ⟨Position.le_trans (hordered w (by simp)) hapart,
    Position.le_trans hapart (hordered v (by simp))⟩

theorem InOrder.start_le {w : Word} {ws : List Word} (h : InOrder (w :: ws)) :
    ∀ v ∈ w :: ws, w.span.start ≤ v.span.stop := by
  have hfirst := h.ordered w List.mem_cons_self
  refine List.forall_mem_cons.mpr ⟨hfirst, fun v hv => ?_⟩
  have hapart := (List.pairwise_cons.mp h.pairwise).1 v hv
  have hlast := h.ordered v (List.mem_cons_of_mem w hv)
  exact Position.le_trans hfirst (Position.le_trans hapart hlast)

/-- The text of a symbol among the tokens of a text. -/
theorem text_of_mem_shapes {text : String} {ss : List Shape}
    (h : (scan text).map Token.shape = ss) {s : Shape} (hs : s ∈ ss) {c : Char}
    (hkind : s.1 = Token.symbol c) (hc : Token.symbol c ≠ .invalid) :
    s.2 = String.singleton c := by
  obtain ⟨t, ht, rfl⟩ := List.mem_map.mp (h ▸ hs)
  exact Token.text_of_symbol ht hkind hc

/-- A link has no list in it. -/
theorem Link.Spelled.kind_ne {l : Link} {run : List Word} (h : l.Spelled run) :
    ∀ w ∈ run, w.kind ≠ .lBrace := by
  cases h with
  | strong hcolon howner hsign hlabel => simp [hcolon, howner, hsign, hlabel]
  | weak hcolon howner hsign hlabel hmark => simp [hcolon, howner, hsign, hlabel, hmark]

/-- The span of a link is that of its words but for the `:`. -/
theorem Link.Spelled.span_eq {l : Link} {run : List Word} (h : l.Spelled run)
    (horder : InOrder run) :
    ∃ colon owner others, run = colon :: owner :: others ∧ colon.kind = .colon ∧
      owner.kind = .ident ∧ l.span = ⟨owner.span.start, (others.getLastD owner).span.stop⟩ := by
  cases h with
  | @strong colon owner sign label hcolon howner hsign hlabel =>
    obtain ⟨hstart, hstop⟩ := horder.le_of_sublist (w := owner) (v := label) (by simp)
    exact ⟨colon, owner, [sign, label], rfl, hcolon, howner, Span.cover_of_le hstart hstop⟩
  | @weak colon owner sign label mark hcolon howner hsign hlabel hmark =>
    obtain ⟨hstart, hstop⟩ := horder.le_of_sublist (w := owner) (v := label) (by simp)
    obtain ⟨hmarkStart, -⟩ := horder.le_of_sublist (w := owner) (v := mark) (by simp)
    obtain ⟨-, hmarkStop⟩ := horder.le_of_sublist (w := label) (v := mark)
      (.cons _ (.cons _ (.cons _ (.refl _))))
    refine ⟨colon, owner, [sign, label, mark], rfl, hcolon, howner, ?_⟩
    have hstrong : (Link.strong owner.lexeme label.lexeme).span =
        ⟨owner.span.start, label.span.stop⟩ := Span.cover_of_le hstart hstop
    show (Link.strong owner.lexeme label.lexeme).span.cover mark.span = _
    rw [hstrong]
    exact Span.cover_of_le hmarkStart hmarkStop

/-- The words of a link but for the `:` are the tokens of its constraint. -/
theorem Link.Spelled.map_shape {l : Link} {run : List Word} (h : l.Spelled run) {s : Store}
    {log : List Declaration} (hs : s.Keeps log) {c : SyncConstraint} (hc : l.Denotes s c)
    (hsymbols : ∀ w ∈ run.tail, ∀ d, w.kind = Token.symbol d → Token.symbol d ≠ .invalid →
      w.text = String.singleton d) :
    run.tail.map Word.shape = c.tokens s := by
  have hprocess := hs.nameOf_eq rfl hc.process
  have hevent := hs.nameOf_eq rfl hc.event
  have hstrength := hc.strength
  cases h with
  | @strong colon owner sign label hcolon howner hsign hlabel =>
    have hat : sign.text = "@" := hsymbols sign (by simp) '@' hsign (by decide)
    have hstrong : c.strength = .strong := hstrength
    rw [SyncConstraint.tokens, hprocess, hevent, hstrong]
    simp [Word.shape, howner, hsign, hat, hlabel, Link.strong, Word.lexeme]
  | @weak colon owner sign label mark hcolon howner hsign hlabel hmark =>
    have hat : sign.text = "@" := hsymbols sign (by simp) '@' hsign (by decide)
    have hquestion : mark.text = "?" := hsymbols mark (by simp) '?' hmark (by decide)
    have hweak : c.strength = .weak := hstrength
    rw [SyncConstraint.tokens, hprocess, hevent, hweak]
    simp [Word.shape, howner, hsign, hat, hlabel, hmark, hquestion, Link.strong, Link.weaken,
      Word.lexeme]

/-- **Links.** The span of a constraint slices back to the words of its link. -/
theorem Line.IsCut.slicesBack_of_link {source : String} {before ts after : List Token} {l : Line}
    (h : l.IsCut source before ts after) {front run back : List Word}
    (hsplit : l.words = front ++ (run ++ back))
    (hopen : Mode.through .outside (kinds front) = .outside) {s : Store} {log : List Declaration}
    (hs : s.Keeps log) {link : Link} (hlink : link.Spelled run) {c : SyncConstraint}
    (hc : link.Denotes s c) : c.SlicesBack s source := by
  have hrun : InOrder run := h.inOrder.sublist (by rw [hsplit]; simp)
  obtain ⟨colon, owner, others, rfl, hcolon, howner, hspan⟩ := hlink.span_eq hrun
  have hbehind : Mode.through .outside (kinds (front ++ [colon])) = .outside := by
    rw [kinds, List.map_append, Mode.through_append]
    show (Mode.through .outside (kinds front)).after colon.kind = .outside
    rw [hopen, hcolon]
    rfl
  have hcut : l.words = front ++ [colon] ++ (owner :: others ++ back) := by simp [hsplit]
  obtain ⟨text, htext, hshapes, -⟩ := h.window hcut (by simp [howner]) hbehind
  refine ⟨text, ?_, ?_⟩
  · rw [hc.span, hspan]
    exact htext
  · rw [hshapes]
    refine hlink.map_shape hs hc fun w hw d hkind hd => ?_
    exact text_of_mem_shapes hshapes (List.mem_map_of_mem hw) hkind hd

-- ============================================================================
-- Lines
-- ============================================================================

/-- What is related to a list, element by element, has each of its elements from there. -/
theorem exists_mem_of_forall₂ {α β : Type} {R : α → β → Prop} {as : List α} {bs : List β}
    (h : List.Forall₂ R as bs) : ∀ b ∈ bs, ∃ a ∈ as, R a b := by
  induction h with
  | nil => simp
  | cons hab _ ih =>
    refine List.forall_mem_cons.mpr ⟨⟨_, List.mem_cons_self, hab⟩, fun b hb => ?_⟩
    obtain ⟨a, ha, hab⟩ := ih b hb
    exact ⟨a, List.mem_cons_of_mem _ ha, hab⟩

/-- **A synchronization.** The span of each constraint slices back to it. -/
theorem Line.IsCut.slicesBack {source : String} {before ts after : List Token} {l : Line}
    (h : l.IsCut source before ts after) (hline : InLine l.words) {s : Store}
    {log : List Declaration} (hs : s.Keeps log) {φ : Phrase} {as : Attributes}
    (houtcome : (Phrase.opening.read l.words).outcome l.stop = .ok (φ, as))
    {cs : List SyncConstraint} (hdenotes : φ.Denotes s (.sync cs)) :
    ∀ c ∈ cs, c.SlicesBack s source := by
  have hspelled : Spelled Phrase.rules (Phrase.opening.read l.words).words φ :=
    Place.spelled_of_outcome houtcome
  rw [Place.words_of_outcome hline houtcome] at hspelled
  obtain ⟨first, k, r, body, list, hsplit, hfirst, hlookup, hbody, -⟩ := hspelled
  cases hdenotes with
  | sync hlinks =>
    obtain ⟨runs, hruns, rfl⟩ := linksSpelled_of_sync hlookup hbody
    intro c hc
    obtain ⟨link, hlink, hdenotes⟩ := exists_mem_of_forall₂ hlinks c hc
    obtain ⟨run, hrun, hspelled⟩ := exists_mem_of_forall₂ hruns.flip link hlink
    obtain ⟨runs₁, runs₂, rfl⟩ := List.append_of_mem hrun
    have hcut : l.words = first :: runs₁.flatten ++ (run ++ (runs₂.flatten ++ list)) := by
      rw [hsplit]
      simp
    refine h.slicesBack_of_link hcut (Mode.through_outside ?_) hs hspelled hdenotes
    -- nothing before a link is a `{`
    have hbefore : ∀ w ∈ first :: runs₁.flatten, w.kind ≠ .lBrace := by
      refine List.forall_mem_cons.mpr ⟨by simp [hfirst], fun w hw => ?_⟩
      obtain ⟨run', hrun', hw⟩ := List.mem_flatten.mp hw
      obtain ⟨link', -, hspelled'⟩ :=
        exists_mem_of_forall₂ hruns run' (List.mem_append_left _ hrun')
      exact hspelled'.kind_ne w hw
    intro k' hk'
    obtain ⟨w, hw, rfl⟩ := List.mem_map.mp hk'
    exact hbefore w hw

/-- A span on one line that slices back to a text which begins with a word and has the tokens of
that line, all of them but its end. -/
structure Span.IsLineOf (s : Span) (source word : String) : Prop where
  isOnOneLine : s.IsOnOneLine
  text : ∃ text, s.textIn? source = some text ∧ '\n' ∉ text.toList ∧
    (∃ more, text = word ++ more) ∧
    (scan text).map Token.shape =
      ((scan source).filter fun t => ((LineIndex.ofText source).position t.start).line =
        s.start.line ∧ t.kind ≠ .endOfLine).map Token.shape

/-- The tokens of the row of a line. -/
theorem map_shape_row {source : String} {l : Line} (hl : l ∈ linesOf source.toList) :
    ((scan source).filter fun t => ((LineIndex.ofText source).position t.start).line = l.row ∧
      t.kind ≠ .endOfLine).map Token.shape = l.words.map Word.shape := by
  rw [← filter_row_wordsOf hl, wordsOf, List.filter_map, List.map_map]
  rfl

/-- **Lines.** The span of all that a line makes up slices back to its words. -/
theorem Line.IsCut.isLineOf {source : String} {before ts after : List Token} {l : Line}
    (h : l.IsCut source before ts after) (hl : l ∈ linesOf source.toList) {α : Type} {c : Context}
    {rules : List (Keyword × Rule α)} {a : α} {as : Attributes}
    (houtcome : ((Place.opening c rules).read l.words).outcome l.stop = .ok (a, as)) :
    ∃ k r body, rules.lookup k = some r ∧ r.Spelled body a ∧
      (((Place.opening c rules).read l.words).span l.stop).IsLineOf source k.text := by
  have hrow := isOneRow_linesOf source.toList l hl
  obtain ⟨hstart, hstop⟩ := hrow.span (p := Place.opening c rules) rfl houtcome
  have hwords := Place.words_of_outcome hrow.inLine houtcome
  have hspelled := Place.spelled_of_outcome houtcome
  rw [hwords] at hspelled
  obtain ⟨first, k, r, body, list, hsplit, hfirst, hlookup, hbody, -⟩ := hspelled
  have hcut : l.words = [] ++ (first :: (body ++ list) ++ []) := by simp [hsplit]
  obtain ⟨text, htext, hshapes, more, hmore⟩ := h.window hcut (by simp [hfirst]) rfl
  have horder : InOrder (first :: (body ++ list)) := hsplit ▸ h.inOrder
  have hspan : ((Place.opening c rules).read l.words).span l.stop =
      ⟨first.span.start, ((body ++ list).getLastD first).span.stop⟩ := by
    have hle := horder.start_le ((body ++ list).getLastD first) List.getLastD_mem_cons
    rw [Reading.span, hwords, hsplit, List.headD_cons, List.getLastD_cons,
      Position.max_eq_right hle]
  refine ⟨k, r, body, hlookup, hbody, hstart.trans hstop.symm, text, ?_, ?_, ?_, ?_⟩
  · rw [hspan]
    exact htext
  · refine Token.newline_notMem_of_scan fun t ht hend => ?_
    obtain ⟨w, hw, hshape⟩ := List.mem_map.mp (hshapes ▸ List.mem_map_of_mem (f := Token.shape) ht)
    have hkind : w.kind = t.kind := congrArg Prod.fst hshape
    exact hrow.kind_ne_endOfLine w (hsplit ▸ hw) (hkind.trans hend)
  · have hfound : first.shape ∈ (scan text).map Token.shape := by
      rw [hshapes]
      exact List.mem_cons_self
    obtain ⟨t, ht, hshape⟩ := List.mem_map.mp hfound
    obtain ⟨hkind, hfirstText⟩ := Prod.mk.inj hshape
    rw [hmore, ← hfirstText, Token.text_of_keyword ht (hkind.trans hfirst)]
    exact ⟨more, rfl⟩
  · rw [hshapes, hstart, map_shape_row hl, hsplit]

-- ============================================================================
-- Texts
-- ============================================================================

/-- All spans of a declaration slice back: those of its attributes and constraints, and its own. -/
structure Declaration.SlicesBack (s : Store) (source : String) (d : Declaration) : Prop where
  attributes : ∀ a ∈ d.attributes.entries, a.SlicesBack source
  constraints : ∀ cs, d.item = .sync cs → ∀ c ∈ cs, c.SlicesBack s source
  line : d.span.IsLineOf source d.kind.text

/-- The only rule for the line that declares the network. -/
theorem Header.keyword_of_lookup {k : Keyword} {r : Rule Lexeme}
    (h : Header.rules.lookup k = some r) : k = .system := by
  obtain ⟨before, after, hrules, -⟩ := List.lookup_eq_some_iff.mp h
  have hmem : (k, r) ∈ Header.rules := by
    rw [hrules]
    simp
  exact (Prod.mk.inj (List.mem_singleton.mp hmem)).1

/-- The attributes of a line slice back. -/
theorem slicesBack_of_outcome {source : String} {l : Line} (hl : l ∈ linesOf source.toList)
    {α : Type} {c : Context} {rules : List (Keyword × Rule α)} {b : α} {as : Attributes}
    (houtcome : ((Place.opening c rules).read l.words).outcome l.stop = .ok (b, as)) :
    ∀ a ∈ as.entries, a.SlicesBack source := by
  obtain ⟨before, ts, after, hcut⟩ := exists_cut hl
  have hline := inLine_linesOf source.toList l hl
  intro a ha
  obtain ⟨pre, gap, raw, post, hwritten⟩ :=
    hcut.isWritten (Place.spelledIn_of_outcome hline houtcome a ha)
  exact hwritten.slicesBack

/-- **Declarations.** One that is read off a line slices back. -/
theorem Store.Reads.slicesBack {source : String} {l : Line} (hl : l ∈ linesOf source.toList)
    {s : Store} {log : List Declaration} (hs : s.Keeps log) {d : Declaration}
    (h : s.Reads l d) : d.SlicesBack s source := by
  obtain ⟨⟨φ, houtcome, hdenotes⟩, hspan⟩ := h
  obtain ⟨before, ts, after, hcut⟩ := exists_cut hl
  obtain ⟨k, r, body, hlookup, hbody, hlineOf⟩ := hcut.isLineOf hl houtcome
  refine ⟨slicesBack_of_outcome hl houtcome, fun cs hcs => ?_, ?_⟩
  · rw [hcs] at hdenotes
    exact hcut.slicesBack (inLine_linesOf source.toList l hl) hs houtcome hdenotes
  · have hkeyword : k.text = d.kind.text := by
      rw [keyword_of_spelled hlookup hbody, ← hdenotes.kind_eq, Kind.text_keyword]
      rfl
    rw [hspan, ← hkeyword]
    exact hlineOf

/-- **Spans slice back.** The spans of a network that is read from a text are pieces of it, and what
they describe is written there: the keys and values of attributes, the constraints of
synchronizations, and the lines that declare the network and its declarations. -/
theorem spans_slice_back {source : String} {options : Options} {n : System}
    (h : (parse source options).system = some n) :
    (∀ a ∈ n.attributes.entries, a.SlicesBack source) ∧ n.span.IsLineOf source "system" ∧
      ∀ d ∈ n.store.declarations, d.SlicesBack n.store source := by
  obtain ⟨first, others, name, as, hlines, hheader, hclean, rfl⟩ := exists_header_of_parse h
  have hmem : ∀ l ∈ first :: others, l ∈ linesOf source.toList := fun l hl => hlines ▸ hl
  obtain ⟨hfirst, hothers⟩ := List.forall_mem_cons.mp hmem
  have hlexical : ∀ l ∈ others, Lexical true (l.words.map Word.shape) := fun l hl =>
    lexical_linesOf source.toList l (hothers l hl)
  obtain ⟨ds, hgrows, hreads⟩ := Store.reads_enterLines Store.keeps_empty hlexical hclean
  have hkeeps := hgrows.keeps Store.keeps_empty
  refine ⟨slicesBack_of_outcome hfirst hheader, ?_, fun d hd => ?_⟩
  · obtain ⟨before, ts, after, hcut⟩ := exists_cut hfirst
    obtain ⟨k, r, body, hlookup, -, hlineOf⟩ := hcut.isLineOf hfirst hheader
    rw [Header.keyword_of_lookup hlookup] at hlineOf
    exact hlineOf
  · have hread : d ∈ ds := by
      have hdeclared : d ∈ [] ++ ds := hkeeps.declarations_eq ▸ hd
      exact hdeclared
    obtain ⟨l, hl, hreads⟩ := exists_mem_of_forall₂ hreads d hread
    exact hreads.slicesBack (hothers l hl) hkeeps

/-- A text with characters of several bytes, blanks between tokens, a blank value and an absent one,
which is read as a network. -/
def spacedSample : String :=
  "system:S\x7bk: é v :sync: \x7d # ö\nprocess:p\nevent:e\nsync : p @ e ? \x7ba :: b:ü\x7d # →\n"

/-- What its spans slice back to. -/
theorem spans_slice_back_spacedSample :
    ∃ n, (parse spacedSample {}).system = some n ∧
      (∀ a ∈ n.attributes.entries, a.SlicesBack spacedSample) ∧
      n.span.IsLineOf spacedSample "system" ∧
      (∀ d ∈ n.store.declarations, d.SlicesBack n.store spacedSample) ∧
      (n.attributes.entries ++ n.store.declarations.flatMap fun d => d.attributes.entries).map
          (fun a => (a.keySpan.textIn? spacedSample, a.valueSpan.textIn? spacedSample)) =
        [(some "k", some " é v "), (some "sync", some " "), (some "a", some ""),
          (some "b", some "ü")] ∧
      (n.span :: n.store.declarations.map Declaration.span).map (·.textIn? spacedSample) =
        [some "system:S\x7bk: é v :sync: \x7d", some "process:p", some "event:e",
          some "sync : p @ e ? \x7ba :: b:ü\x7d"] ∧
      (n.store.declarations.map fun d => d.item.constraintSpans.map (·.textIn? spacedSample)) =
        [[], [], [some "p @ e ?"]] := by
  have hspans : ((parse spacedSample {}).system.map fun n =>
      ((n.attributes.entries ++ n.store.declarations.flatMap fun d => d.attributes.entries).map
          (fun a => (a.keySpan.textIn? spacedSample, a.valueSpan.textIn? spacedSample)),
        (n.span :: n.store.declarations.map Declaration.span).map (·.textIn? spacedSample),
        n.store.declarations.map fun d => d.item.constraintSpans.map (·.textIn? spacedSample))) =
      some ([(some "k", some " é v "), (some "sync", some " "), (some "a", some ""),
          (some "b", some "ü")],
        [some "system:S\x7bk: é v :sync: \x7d", some "process:p", some "event:e",
          some "sync : p @ e ? \x7ba :: b:ü\x7d"],
        [[], [], [some "p @ e ?"]]) := by
    decide +kernel
  obtain ⟨n, hn, htexts⟩ := Option.map_eq_some_iff.mp hspans
  obtain ⟨hattributes, hrest⟩ := Prod.mk.inj htexts
  obtain ⟨hlines, hconstraints⟩ := Prod.mk.inj hrest
  obtain ⟨hnetwork, hline, hdeclarations⟩ := spans_slice_back hn
  exact ⟨n, hn, hnetwork, hline, hdeclarations, hattributes, hlines, hconstraints⟩

end TimedNet
