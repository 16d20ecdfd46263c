/-
  TimedNet.Proofs.Grammar.Rereading

  Reading what is printed. `Leads p ws parts q` says that reading goes from place `p` over the words
  `ws` to place `q`, whatever follows, and completes `parts`. Words with the kinds and texts of a
  printed line lead to the end of the line, with what was printed read.
-/
import TimedNet.Proofs.Grammar.Content
import TimedNet.Proofs.Grammar.LineReading
import TimedNet.Proofs.Text.Trim
import TimedNet.Proofs.Token.Printing
import TimedNet.Proofs.Spans

namespace TimedNet

/-- Reading goes from one place over words to another, whatever follows, and completes parts. -/
def Leads {α : Type} (p : Place α) (ws : List Word) (parts : List Part) (q : Place α) : Prop :=
  ∀ rest, p.read (ws ++ rest) =
    ⟨ws ++ (q.read rest).words, parts ++ (q.read rest).parts, (q.read rest).place,
      (q.read rest).rest⟩

namespace Leads

variable {α : Type} {p q r : Place α} {ws vs : List Word} {parts parts' : List Part}

theorem refl (p : Place α) : Leads p [] [] p := fun _ => rfl

theorem step {w : Word} (h : p.next w = some q) : Leads p [w] (p.part? w).toList q :=
  fun rest => Place.read_cons_of_some h rest

theorem trans (h : Leads p ws parts q) (h' : Leads q vs parts' r) :
    Leads p (ws ++ vs) (parts ++ parts') r := by
  intro rest
  rw [List.append_assoc, h, h', List.append_assoc, List.append_assoc]

/-- A word in front that completes no part. -/
theorem cons {w : Word} (h : p.next w = some q) (hpart : p.part? w = none)
    (h' : Leads q ws parts r) : Leads p (w :: ws) parts r := by
  have hstep := (step h).trans h'
  rwa [hpart] at hstep

/-- A line that leads to the end of an attribute list was read as a whole. -/
theorem outcome {c : Context} {a : α} {es : List Attribute}
    (h : Leads p ws parts (.list c a es .closed)) {rest : List Word} (hrest : AtLineEnd rest)
    {close : Word} (hclose : close.kind.endsDeclaration = true) :
    (p.read (ws ++ rest)).outcome close = .ok (a, ⟨es⟩) ∧ (p.read (ws ++ rest)).parts = parts ∧
      (p.read (ws ++ rest)).rest = rest := by
  have hread : (Place.list c a es .closed).read rest = ⟨[], [], .list c a es .closed, rest⟩ := by
    cases rest with
    | nil => rfl
    | cons e rest => exact Place.read_cons_of_none rfl rest
  have hstop : (rest.headD close).kind.endsDeclaration = true := by
    cases rest with
    | nil => exact hclose
    | cons e rest => exact Word.endsDeclaration_of_isLineEnd (hrest e rfl)
  rw [h rest, hread]
  exact ⟨Reading.outcome_eq_ok_iff.mpr ⟨hstop, rfl⟩, List.append_nil _, rfl⟩

end Leads

-- ============================================================================
-- Attribute lists
-- ============================================================================

theorem kind_of_shape {w : Word} {k : TokenKind} {text : String} (h : w.shape = (k, text)) :
    w.kind = k := congrArg Prod.fst h

theorem text_of_shape {w : Word} {k : TokenKind} {text : String} (h : w.shape = (k, text)) :
    w.text = text := congrArg Prod.snd h

section Entries

variable {α : Type} (c : Context) (a : α) (es : List Attribute)

/-- One attribute, and the word behind it: a `:` before the next, or the end of the list. -/
theorem leads_entry {step : ListStep} (hstep : step = .opened ∨ step = .key) {key : String}
    {value : List Char} {ws : List Word}
    (hws : ws.map Word.shape = (.ident, key) :: symbolShape ':' :: Token.valueShapes value)
    {e : Word} {next : ListStep}
    (he : (e.kind = .colon ∧ next = .key) ∨ (e.kind = .rBrace ∧ next = .closed)) :
    ∃ b : Attribute, b.key = key ∧ b.value = Text.trim (String.ofList value) ∧
      Leads (.list c a es step) (ws ++ [e]) [] (.list c a (es ++ [b]) next) := by
  obtain ⟨k, ws, rfl, hk, hws⟩ := List.map_eq_cons_iff.mp hws
  obtain ⟨colon, ws, rfl, hcolon, hws⟩ := List.map_eq_cons_iff.mp hws
  have hkey : (Place.list c a es step).next k = some (.list c a es (.colon k)) := by
    have hkind := kind_of_shape hk
    rcases hstep with rfl | rfl <;> simp [Place.next, Place.nextInList, hkind]
  have hbehind : (Place.list c a es (.colon k)).next colon = some (.list c a es (.value k)) := by
    have hkind : colon.kind = .colon := kind_of_shape hcolon
    simp [Place.next, Place.nextInList, hkind]
  cases value with
  | nil =>
    obtain rfl := List.map_eq_nil_iff.mp hws
    refine ⟨Place.bare k e, text_of_shape hk, rfl, .cons hkey rfl (.cons hbehind rfl ?_)⟩
    refine .cons ?_ rfl (.refl _)
    rcases he with ⟨he, rfl⟩ | ⟨he, rfl⟩ <;> simp [Place.next, Place.nextInList, he]
  | cons v vs =>
    obtain ⟨text, ws, rfl, htext, hnil⟩ := List.map_eq_cons_iff.mp hws
    obtain rfl := List.map_eq_nil_iff.mp hnil
    have hvalue : (Place.list c a es (.value k)).next text =
        some (.list c a es (.separator k text)) := by
      have hkind := kind_of_shape htext
      simp [Place.next, Place.nextInList, hkind]
    refine ⟨Place.valued k text, text_of_shape hk, ?_, .cons hkey rfl (.cons hbehind rfl ?_)⟩
    · show Text.trim text.text = _
      rw [text_of_shape htext]
    · refine .cons hvalue rfl (.cons ?_ rfl (.refl _))
      rcases he with ⟨he, rfl⟩ | ⟨he, rfl⟩ <;> simp [Place.next, Place.nextInList, he]

/-- Printed attributes are read up to the end of the list. -/
theorem leads_entries {as : List Attribute} (has : ∀ b ∈ as, b.IsPrintable) {step : ListStep}
    (hstep : step = .opened ∨ (step = .key ∧ as ≠ [])) {ws : List Word}
    (hws : ws.map Word.shape = entryShapes as ++ [symbolShape '}']) :
    ∃ es' : List Attribute, es'.map Attribute.withoutSpans = as.map Attribute.withoutSpans ∧
      Leads (.list c a es step) ws [] (.list c a (es ++ es') .closed) := by
  induction as using entryShapes.induct generalizing step es ws with
  | case1 =>
    obtain ⟨e, ws, rfl, he, hnil⟩ := List.map_eq_cons_iff.mp hws
    obtain rfl := List.map_eq_nil_iff.mp hnil
    obtain rfl : step = .opened := hstep.resolve_right fun h => h.2 rfl
    have hkind : e.kind = .rBrace := kind_of_shape he
    refine ⟨[], rfl, .cons ?_ rfl (.refl _)⟩
    simp [Place.next, Place.nextInList, hkind]
  | case2 b =>
    obtain ⟨front, close, rfl, hfront, hclose⟩ := List.map_eq_append_iff.mp hws
    obtain ⟨e, close, rfl, he, hnil⟩ := List.map_eq_cons_iff.mp hclose
    obtain rfl := List.map_eq_nil_iff.mp hnil
    obtain ⟨-, -, htrim⟩ := has b List.mem_cons_self
    obtain ⟨b', hkey, hvalue, hleads⟩ := leads_entry c a es (hstep.imp id And.left) hfront
      (Or.inr ⟨kind_of_shape he, rfl⟩)
    refine ⟨[b'], ?_, hleads⟩
    rw [String.ofList_toList, htrim] at hvalue
    simp [Attribute.withoutSpans_eq_iff, hkey, hvalue]
  | case3 b b' bs ih =>
    have hsplit : entryShapes (b :: b' :: bs) ++ [symbolShape '}'] =
        ((.ident, b.key) :: symbolShape ':' :: Token.valueShapes (b.value.toList ++ [' '])) ++
          symbolShape ':' :: (entryShapes (b' :: bs) ++ [symbolShape '}']) := by
      simp [entryShapes]
    rw [hsplit] at hws
    obtain ⟨front, behind, rfl, hfront, hbehind⟩ := List.map_eq_append_iff.mp hws
    obtain ⟨e, more, rfl, he, hmore⟩ := List.map_eq_cons_iff.mp hbehind
    obtain ⟨-, -, htrim⟩ := has b List.mem_cons_self
    obtain ⟨b₁, hkey, hvalue, hleads⟩ := leads_entry c a es (hstep.imp id And.left) hfront
      (Or.inl ⟨kind_of_shape he, rfl⟩)
    obtain ⟨es', hes', hrest⟩ := ih (es ++ [b₁]) (fun d hd => has d (List.mem_cons_of_mem b hd))
      (Or.inr ⟨rfl, by simp⟩) hmore
    refine ⟨b₁ :: es', ?_, ?_⟩
    · rw [Text.trim_ofList_concat (by decide), String.ofList_toList, htrim] at hvalue
      rw [List.map_cons, List.map_cons, hes', Attribute.withoutSpans_eq_iff.mpr ⟨hkey, hvalue⟩]
    · have hall := hleads.trans hrest
      simpa using hall

/-- A printed attribute list is read to its end, where it may be opened. -/
theorem leads_list {as : Attributes} (has : ∀ b ∈ as.entries, b.IsPrintable) {p : Place α}
    (hp : ∀ w : Word, w.kind = .lBrace →
      p.next w = some (.list c a [] .opened) ∧ p.part? w = none)
    {ws : List Word} (hws : ws.map Word.shape = as.shapes) :
    ∃ es : List Attribute, (⟨es⟩ : Attributes).withoutSpans = as.withoutSpans ∧
      Leads p ws [] (.list c a es .closed) := by
  obtain ⟨w, ws, rfl, hw, hws⟩ := List.map_eq_cons_iff.mp hws
  obtain ⟨hnext, hpart⟩ := hp w (kind_of_shape hw)
  obtain ⟨es, hes, hleads⟩ := leads_entries c a [] has (Or.inl rfl) hws
  exact ⟨es, congrArg Attributes.mk hes, .cons hnext hpart hleads⟩

end Entries

-- ============================================================================
-- Fields
-- ============================================================================

/-- What fields make up, if there is one for every slot. -/
def fill? {α : Type} : (slots : List Slot) → Filling α slots → List Lexeme → Option α
  | [], a, [] => some a
  | _ :: slots, fill, l :: ls => fill? slots (fill l) ls
  | _, _, _ => none

/-- The parts that fields are. -/
def partsOf : List Slot → List Lexeme → List Part
  | slot :: slots, l :: ls => (slot.part? l).toList ++ partsOf slots ls
  | _, _ => []

/-- The tokens of fields. -/
def slotShapes (slots : List Slot) (texts : List String) : List (List Shape) :=
  List.zipWith (fun slot text => [(slot.kind, text)]) slots texts

/-- Printed fields are read, one after the other. -/
theorem leads_fields {α : Type} (c : Context) {slots : List Slot} (fill : Filling α slots)
    {texts : List String} (hlen : slots.length = texts.length) {ws : List Word}
    (hws : ws.map Word.shape = fieldShapes (slotShapes slots texts)) :
    ∃ ls a, ls.map Lexeme.text = texts ∧ fill? slots fill ls = some a ∧
      Leads (Place.ofSlots c slots fill) ws (partsOf slots ls) (.filled c a) := by
  induction slots generalizing texts ws with
  | nil =>
    obtain rfl := List.eq_nil_of_length_eq_zero hlen.symm
    obtain rfl := List.map_eq_nil_iff.mp hws
    exact ⟨[], fill, rfl, rfl, .refl _⟩
  | cons slot slots ih =>
    obtain ⟨text, texts, rfl⟩ := List.exists_cons_of_length_eq_add_one hlen.symm
    obtain ⟨colon, ws, rfl, hcolon, hws⟩ := List.map_eq_cons_iff.mp hws
    obtain ⟨w, ws, rfl, hw, hws⟩ := List.map_eq_cons_iff.mp hws
    obtain ⟨ls, a, htexts, hfill, hleads⟩ := ih (fill w.lexeme) (Nat.succ.inj hlen) hws
    refine ⟨w.lexeme :: ls, a, ?_, hfill, ?_⟩
    · rw [List.map_cons, htexts]
      exact congrArg (· :: texts) (text_of_shape hw)
    · have hbehind : (Place.ofSlots c (slot :: slots) fill).next colon =
          some (.field c slot slots fill) := by
        have hkind : colon.kind = .colon := kind_of_shape hcolon
        simp [Place.ofSlots, Place.next, hkind]
      have hfield : (Place.field c slot slots fill).next w =
          some (.ofSlots c slots (fill w.lexeme)) := by
        simp [Place.next, kind_of_shape hw]
      have hpart : (Place.field c slot slots fill).part? w = slot.part? w.lexeme := by
        cases slot <;> rfl
      refine .cons hbehind rfl ?_
      have hstep := (Leads.step hfield).trans hleads
      rwa [hpart] at hstep

-- ============================================================================
-- Links
-- ============================================================================

namespace Link

/-- A process, an event and a strength. -/
def content (l : Link) : String × String × Strength := (l.process.text, l.event.text, l.strength)

end Link

/-- The tokens of a link. -/
def linkShapes : String × String × Strength → List Shape
  | (process, event, .strong) => [(.ident, process), symbolShape '@', (.ident, event)]
  | (process, event, .weak) =>
    [(.ident, process), symbolShape '@', (.ident, event), symbolShape '?']

section Links

variable {α : Type} (c : Context) (join : List Link → α) (links : List Link)

/-- A printed link is read where one may follow. -/
theorem leads_link {p : Place α}
    (hp : ∀ w : Word, w.kind = .colon →
      p.next w = some (.link c join links .process) ∧ p.part? w = none)
    {contents : String × String × Strength} {ws : List Word}
    (hws : ws.map Word.shape = symbolShape ':' :: linkShapes contents) :
    ∃ l : Link, l.content = contents ∧ Leads p ws [l.part] (.link c join links (.done l)) := by
  obtain ⟨process, event, strength⟩ := contents
  obtain ⟨colon, ws, rfl, hcolon, hws⟩ := List.map_eq_cons_iff.mp hws
  have hfront : linkShapes (process, event, strength) =
      (.ident, process) :: symbolShape '@' :: (.ident, event) ::
        match strength with
        | .strong => []
        | .weak => [symbolShape '?'] := by
    cases strength <;> rfl
  rw [hfront] at hws
  obtain ⟨w, ws, rfl, hw, hws⟩ := List.map_eq_cons_iff.mp hws
  obtain ⟨sign, ws, rfl, hat, hws⟩ := List.map_eq_cons_iff.mp hws
  obtain ⟨v, ws, rfl, hv, hws⟩ := List.map_eq_cons_iff.mp hws
  obtain ⟨hnext, hpart⟩ := hp colon (kind_of_shape hcolon)
  have hprocess : (Place.link c join links .process).next w =
      some (.link c join links (.atSign w.lexeme)) := by
    simp [Place.next, Place.nextInLink, kind_of_shape hw]
  have hatSign : (Place.link c join links (.atSign w.lexeme)).next sign =
      some (.link c join links (.event w.lexeme)) := by
    have hkind : sign.kind = .atSign := kind_of_shape hat
    simp [Place.next, Place.nextInLink, hkind]
  have hevent : (Place.link c join links (.event w.lexeme)).next v =
      some (.link c join links (.done (.strong w.lexeme v.lexeme))) := by
    simp [Place.next, Place.nextInLink, kind_of_shape hv]
  have hleads : Leads p [colon, w, sign, v] [.link w.lexeme v.lexeme]
      (.link c join links (.done (.strong w.lexeme v.lexeme))) :=
    .cons hnext hpart (.cons hprocess rfl (.cons hatSign rfl (.step hevent)))
  cases strength with
  | strong =>
    obtain rfl := List.map_eq_nil_iff.mp hws
    refine ⟨.strong w.lexeme v.lexeme, ?_, hleads⟩
    simp only [Link.content, Link.strong, Word.lexeme, text_of_shape hw, text_of_shape hv]
  | weak =>
    obtain ⟨mark, ws, rfl, hmark, hnil⟩ := List.map_eq_cons_iff.mp hws
    obtain rfl := List.map_eq_nil_iff.mp hnil
    have hweak : (Place.link c join links (.done (.strong w.lexeme v.lexeme))).next mark =
        some (.link c join links (.done ((Link.strong w.lexeme v.lexeme).weaken mark))) := by
      have hkind : mark.kind = .question := kind_of_shape hmark
      simp [Place.next, Place.nextInLink, hkind, Link.strong]
    refine ⟨(Link.strong w.lexeme v.lexeme).weaken mark, ?_, hleads.trans (.step hweak)⟩
    simp only [Link.content, Link.weaken, Link.strong, Word.lexeme, text_of_shape hw,
      text_of_shape hv]

/-- Printed links are read, one after the other. -/
theorem leads_moreLinks (l : Link) {contents : List (String × String × Strength)} {ws : List Word}
    (hws : ws.map Word.shape = fieldShapes (contents.map linkShapes)) :
    ∃ ls before last, ls.map Link.content = contents ∧ before ++ [last] = links ++ l :: ls ∧
      Leads (.link c join links (.done l)) ws (ls.map Link.part)
        (.link c join before (.done last)) := by
  induction contents generalizing links l ws with
  | nil =>
    obtain rfl := List.map_eq_nil_iff.mp hws
    exact ⟨[], links, l, rfl, rfl, .refl _⟩
  | cons one more ih =>
    obtain ⟨front, more, rfl, hfront, hmore⟩ := List.map_eq_append_iff.mp hws
    obtain ⟨l', hl', hlink⟩ := leads_link c join (links ++ [l])
      (p := .link c join links (.done l))
      (fun w hw => by simp [Place.next, Place.nextInLink, hw, Place.part?]) hfront
    obtain ⟨ls, before, last, hls, hlast, hleads⟩ := ih (links ++ [l]) l' hmore
    refine ⟨l' :: ls, before, last, by rw [List.map_cons, hl', hls], ?_, ?_⟩
    · rw [hlast, List.append_assoc, List.singleton_append]
    · exact hlink.trans hleads

/-- Printed links behind their keyword. -/
theorem leads_links {contents : List (String × String × Strength)} (hne : contents ≠ [])
    {ws : List Word} (hws : ws.map Word.shape = fieldShapes (contents.map linkShapes)) :
    ∃ before last, (before ++ [last]).map Link.content = contents ∧
      Leads (.link c join [] .lead) ws ((before ++ [last]).map Link.part)
        (.link c join before (.done last)) := by
  obtain ⟨one, contents, rfl⟩ := List.exists_cons_of_ne_nil hne
  obtain ⟨front, more, rfl, hfront, hmore⟩ := List.map_eq_append_iff.mp hws
  obtain ⟨l, hl, hlink⟩ := leads_link c join [] (p := .link c join [] .lead)
    (fun w hw => by simp [Place.next, Place.nextInLink, hw, Place.part?]) hfront
  obtain ⟨ls, before, last, hls, hlast, hleads⟩ := leads_moreLinks c join [] l hmore
  rw [List.nil_append] at hlast
  refine ⟨before, last, ?_, ?_⟩
  · rw [hlast, List.map_cons, hl, hls]
  · rw [hlast]
    exact hlink.trans hleads

end Links

end TimedNet
