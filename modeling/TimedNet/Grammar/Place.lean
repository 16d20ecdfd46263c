/-
  TimedNet.Grammar.Place

  The grammar of a line, as a machine that takes one word at a time. Every place in a declaration
  knows the kinds of words that may come next and leads to another place for each of them, so a line
  is read up to the first word that no declaration goes on with.

  A declaration is a keyword, the fields or links of its rule, and an optional attribute list.
-/
import TimedNet.Declaration.Basic
import TimedNet.Grammar.Context
import TimedNet.Grammar.Word

namespace TimedNet

/-! ## Rules -/

/-- What a field holds. -/
inductive Slot where
  | size
  | bound
  | name
deriving DecidableEq

namespace Slot

/-- The kind of word that a field is written as. -/
def kind : Slot → TokenKind
  | .size => .integer
  | .bound => .integer
  | .name => .ident

end Slot

/-- A function of one lexeme for each slot. -/
def Filling (α : Type) : List Slot → Type
  | [] => α
  | _ :: slots => Lexeme → Filling α slots

/-- A part of a synchronization: `PROCESS@EVENT`, or `PROCESS@EVENT?` for a weak one. -/
structure Link where
  process : Lexeme
  event : Lexeme
  strength : Strength
  span : Span
deriving DecidableEq

namespace Link

/-- `PROCESS@EVENT`. -/
def strong (process event : Lexeme) : Link :=
  ⟨process, event, .strong, process.span.cover event.span⟩

/-- The same link with the `?` behind it. -/
def weaken (l : Link) (mark : Word) : Link :=
  { l with strength := .weak, span := l.span.cover mark.span }

end Link

/-- What follows a keyword: fields, each behind a `:`, or any number of links, at least one, each
behind a `:`. The words read make up an `α`. -/
inductive Rule (α : Type) where
  | fields (context : Context) (slots : List Slot) (fill : Filling α slots)
  | links (context : Context) (join : List Link → α)

/-! ## Places -/

/-- Where in a link. -/
inductive LinkStep where
  /-- Before the `:` of the first link. -/
  | lead
  | process
  | atSign (process : Lexeme)
  | event (process : Lexeme)
  /-- Behind a link. -/
  | done (link : Link)

/-- Where in an attribute list. -/
inductive ListStep where
  /-- Behind the `{`. -/
  | opened
  /-- Behind the `:` that separates two attributes. -/
  | key
  | colon (key : Word)
  /-- Behind the `:` of a key: its value, if it has one. -/
  | value (key : Word)
  | separator (key value : Word)
  /-- Behind the `}`. -/
  | closed

/-- Where in a line. -/
inductive Place (α : Type) where
  /-- Before the keyword. -/
  | opening (context : Context) (rules : List (Keyword × Rule α))
  /-- Before the `:` of a field. -/
  | colon (context : Context) (slot : Slot) (slots : List Slot) (fill : Lexeme → Filling α slots)
  | field (context : Context) (slot : Slot) (slots : List Slot) (fill : Lexeme → Filling α slots)
  /-- Behind the last field. -/
  | filled (context : Context) (a : α)
  | link (context : Context) (join : List Link → α) (links : List Link) (step : LinkStep)
  | list (context : Context) (a : α) (entries : List Attribute) (step : ListStep)

namespace Place

variable {α : Type}

/-- Before the next of the fields that are left. -/
def ofSlots (context : Context) : (slots : List Slot) → Filling α slots → Place α
  | [], a => .filled context a
  | slot :: slots, fill => .colon context slot slots fill

/-- Behind the keyword of a rule. -/
def ofRule : Rule α → Place α
  | .fields context slots fill => ofSlots context slots fill
  | .links context join => .link context join [] .lead

/-- The attribute of a key without value, before the word that follows: its value is empty and
stands where that word begins. -/
def bare (key next : Word) : Attribute :=
  .ofRaw key.text "" key.span (.point next.span.start)

/-- The attribute of a key with a value. -/
def valued (key value : Word) : Attribute :=
  .ofRaw key.text value.text key.span value.span

/-- The place behind a word, within links. -/
def nextInLink (context : Context) (join : List Link → α) (links : List Link) (w : Word) :
    LinkStep → Option (Place α)
  | .lead => if w.kind = .colon then some (.link context join links .process) else none
  | .process =>
    if w.kind = .ident then some (.link context join links (.atSign w.lexeme)) else none
  | .atSign p => if w.kind = .atSign then some (.link context join links (.event p)) else none
  | .event p =>
    if w.kind = .ident then some (.link context join links (.done (.strong p w.lexeme))) else none
  | .done l =>
    match w.kind with
    | .question =>
      if l.strength = .strong then some (.link context join links (.done (l.weaken w))) else none
    | .colon => some (.link context join (links ++ [l]) .process)
    | .lBrace => some (.list context (join (links ++ [l])) [] .opened)
    | _ => none

/-- The place behind a word, within an attribute list. -/
def nextInList (context : Context) (a : α) (entries : List Attribute) (w : Word) :
    ListStep → Option (Place α)
  | .opened =>
    match w.kind with
    | .ident => some (.list context a entries (.colon w))
    | .rBrace => some (.list context a entries .closed)
    | _ => none
  | .key => if w.kind = .ident then some (.list context a entries (.colon w)) else none
  | .colon k => if w.kind = .colon then some (.list context a entries (.value k)) else none
  | .value k =>
    match w.kind with
    | .text => some (.list context a entries (.separator k w))
    | .colon => some (.list context a (entries ++ [bare k w]) .key)
    | .rBrace => some (.list context a (entries ++ [bare k w]) .closed)
    | _ => none
  | .separator k v =>
    match w.kind with
    | .colon => some (.list context a (entries ++ [valued k v]) .key)
    | .rBrace => some (.list context a (entries ++ [valued k v]) .closed)
    | _ => none
  | .closed => none

/-- The place behind a word, if the word may come next. -/
def next (p : Place α) (w : Word) : Option (Place α) :=
  match p with
  | .opening _ rules =>
    match w.kind with
    | .keyword k => (rules.lookup k).map ofRule
    | _ => none
  | .colon context slot slots fill =>
    if w.kind = .colon then some (.field context slot slots fill) else none
  | .field context slot slots fill =>
    if w.kind = slot.kind then some (ofSlots context slots (fill w.lexeme)) else none
  | .filled context a =>
    if w.kind = .lBrace then some (.list context a [] .opened) else none
  | .link context join links step => nextInLink context join links w step
  | .list context a entries step => nextInList context a entries w step

/-- The kinds of words that may come next, and the ends of a line or text if it may end here. -/
def expected : Place α → List TokenKind
  | .opening _ rules => rules.map fun r => .keyword r.1
  | .colon .. => [.colon]
  | .field _ slot .. => [slot.kind]
  | .filled .. => [.lBrace, .endOfLine, .endOfFile]
  | .link _ _ _ step =>
    match step with
    | .lead => [.colon]
    | .process => [.ident]
    | .atSign _ => [.atSign]
    | .event _ => [.ident]
    | .done l =>
      if l.strength = .strong then [.question, .colon, .lBrace, .endOfLine, .endOfFile]
      else [.colon, .lBrace, .endOfLine, .endOfFile]
  | .list _ _ _ step =>
    match step with
    | .opened => [.ident, .rBrace]
    | .key => [.ident]
    | .colon _ => [.colon]
    | .value _ => [.text, .colon, .rBrace]
    | .separator .. => [.colon, .rBrace]
    | .closed => [.endOfLine, .endOfFile]

/-- What a fault at this place is a fault in. -/
def context : Place α → Context
  | .opening c _ => c
  | .colon c .. => c
  | .field c .. => c
  | .filled c _ => c
  | .link c .. => c
  | .list c _ _ .closed => c
  | .list .. => .attributes

/-- What has been read if the line ends here. -/
def result? : Place α → Option (α × Attributes)
  | .filled _ a => some (a, {})
  | .link _ join links (.done l) => some (join (links ++ [l]), {})
  | .list _ a entries .closed => some (a, ⟨entries⟩)
  | _ => none

end Place

end TimedNet
