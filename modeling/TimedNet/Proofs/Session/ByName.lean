/-
  TimedNet.Proofs.Session.ByName

  What lines declare, told by names. The outline of a store has the names of what its declarations
  refer to, in place of their ids. Which line is accepted can be told from the outline alone: it has
  to declare something sound, under a name that is not in the outline, and to refer to names that are
  (`denotes_iff_fits`). Lines that are entered without an error add to the outline what each of them
  declares by itself (`enterLines_of_allowed`), so ids, and stores in between, do not matter.
-/
import TimedNet.Proofs.Session.BoundsModes
import TimedNet.Proofs.Session.PlaceIndependence
import TimedNet.Proofs.Session.PrintedLine
import TimedNet.Proofs.Session.Refusal

namespace TimedNet

-- ============================================================================
-- Names
-- ============================================================================

/-- The namespaces, told by names. -/
inductive NamedScope where
  | variables
  | events
  | processes
  | locations (process : String)
deriving DecidableEq

/-- A name in its namespace. -/
abbrev NamedKey := NamedScope × String

/-- What is declared, with names for what it refers to. -/
inductive NamedItem where
  | clock (name : String) (size : UInt32)
  | int (name : String) (size : UInt32) (min max initial : Int32)
  | event (name : String)
  | process (name : String)
  | location (process name : String)
  | edge (process target source event : String)
  | sync (constraints : List (String × String × Strength))
deriving DecidableEq

/-- A declaration, told by names; of its attributes the places are left out. -/
structure NamedDeclaration where
  item : NamedItem
  attributes : Attributes
deriving DecidableEq

namespace NamedItem

/-- The name that is declared; edges and synchronizations have none. -/
def key? : NamedItem → Option NamedKey
  | .clock name _ => some (.variables, name)
  | .int name .. => some (.variables, name)
  | .event name => some (.events, name)
  | .process name => some (.processes, name)
  | .location p name => some (.locations p, name)
  | .edge .. => none
  | .sync .. => none

/-- The names that have to be declared before. -/
def references : NamedItem → List NamedKey
  | .location p _ => [(.processes, p)]
  | .edge p target source label =>
    [(.processes, p), (.locations p, target), (.locations p, source), (.events, label)]
  | .sync constraints => constraints.flatMap fun c => [(.processes, c.1), (.events, c.2.1)]
  | _ => []

/-- Variables are not of size 0, and where bounds are checked strictly they hold. -/
def IsSound (check : BoundsCheck) : NamedItem → Prop
  | .clock _ size => size ≠ 0
  | .int _ size min max initial => size ≠ 0 ∧ (check = .error → InBounds min max initial)
  | _ => True

/-- The warning about an initial value outside of its bounds, wherever it stands. -/
def warning? (check : BoundsCheck) : NamedItem → Option Diagnostic
  | .int name _ min max initial =>
    if check = .warn ∧ ¬InBounds min max initial then
      some { (Problem.initialBounds name min max initial).diagnostic default with
        severity := .warning }
    else none
  | _ => none

/-- What is declared is sound, its name is not taken, and the names that it refers to are. -/
structure Fits (check : BoundsCheck) (taken : List NamedKey) (m : NamedItem) : Prop where
  isSound : m.IsSound check
  isFree : ∀ key, m.key? = some key → key ∉ taken
  references : ∀ key ∈ m.references, key ∈ taken

end NamedItem

/-- What a phrase declares, if its numerals are in range. -/
def Phrase.named? : Phrase → Option NamedItem
  | .clock size name =>
    (Numeral.unsigned size.text).toOption.map fun n => .clock name.text n
  | .int size min max initial name => do
    let n ← (Numeral.unsigned size.text).toOption
    let lo ← (Numeral.signed min.text).toOption
    let hi ← (Numeral.signed max.text).toOption
    let v ← (Numeral.signed initial.text).toOption
    return .int name.text n lo hi v
  | .event name => some (.event name.text)
  | .process name => some (.process name.text)
  | .location owner name => some (.location owner.text name.text)
  | .edge owner target source label =>
    some (.edge owner.text target.text source.text label.text)
  | .sync links => some (.sync (links.map Link.content))

namespace Store

/-- What is declared in a store, with the names of what it refers to. -/
def named (s : Store) : Item → NamedItem
  | .clock name size => .clock name size
  | .int name size min max initial => .int name size min max initial
  | .event name => .event name
  | .process name => .process name
  | .location p name => .location (s.nameOf p) name
  | .edge p target source label =>
    .edge (s.nameOf p) (s.nameOf target) (s.nameOf source) (s.nameOf label)
  | .sync constraints => .sync (constraints.map s.content)

/-- All declarations, told by names. -/
def outline (s : Store) : List NamedDeclaration :=
  s.declarations.map fun d => ⟨s.named d.item, d.attributes.withoutSpans⟩

/-- The names that are taken. -/
def keys (s : Store) : List NamedKey := s.outline.filterMap fun m => m.item.key?

def namedScope (s : Store) : Scope → NamedScope
  | .variables => .variables
  | .events => .events
  | .processes => .processes
  | .locations p => .locations (s.nameOf p)

/-- The namespace that names tell. -/
def scope? (s : Store) : NamedScope → Option Scope
  | .variables => some .variables
  | .events => some .events
  | .processes => some .processes
  | .locations p => (s.process? p).map .locations

/-- Whether a name leads to a declaration. -/
def Knows (s : Store) (key : NamedKey) : Prop :=
  ∃ scope id, s.scope? key.1 = some scope ∧ s.holder? scope key.2 = some id

theorem key?_named (s : Store) (i : Item) :
    (s.named i).key? = i.key?.map fun key => (s.namedScope key.1, key.2) := by
  cases i <;> rfl

theorem isSound_named (s : Store) (check : BoundsCheck) (i : Item) :
    (s.named i).IsSound check ↔ i.IsSized ∧ (check = .error → i.IsInBounds) := by
  cases i <;> simp [named, NamedItem.IsSound, Item.IsSized, Item.IsInBounds]

/-- A reachable store of which each declaration comes from a phrase. -/
structure IsDenoted (s : Store) : Prop where
  reachable : s.Reachable
  denoted : ∀ d ∈ s.declarations, ∃ φ : Phrase, φ.Denotes s d.item

theorem isDenoted_empty : empty.IsDenoted :=
  ⟨.empty, fun d hd => absurd hd (by simp [declarations, empty])⟩

-- ============================================================================
-- Phrases by name
-- ============================================================================

section Phrases

variable {s : Store} {log : List Declaration} {φ : Phrase} {i : Item} {m : NamedItem}

/-- What a phrase denotes shows as what the phrase says. -/
theorem named?_of_denotes (hs : s.Keeps log) (h : φ.Denotes s i) : φ.named? = some (s.named i) := by
  cases h with
  | clock hsize => simp [Phrase.named?, hsize, Except.toOption, named]
  | int hsize hmin hmax hinitial =>
    simp [Phrase.named?, hsize, hmin, hmax, hinitial, Except.toOption, named]
  | event name => rfl
  | process name => rfl
  | location howner => rw [Phrase.named?, named, hs.nameOf_eq rfl howner]
  | edge howner htarget hsource hlabel =>
    rw [Phrase.named?, named, hs.nameOf_eq rfl howner, hs.nameOf_eq rfl htarget,
      hs.nameOf_eq rfl hsource, hs.nameOf_eq rfl hlabel]
  | sync hlinks => rw [Phrase.named?, named, map_content_eq hs hlinks]

/-- The namespace of what a phrase denotes is told by names. -/
theorem scope?_of_denotes (hs : s.Keeps log) (h : φ.Denotes s i) {scope : Scope} {name : String}
    (hkey : i.key? = some (scope, name)) : s.scope? (s.namedScope scope) = some scope := by
  cases scope with
  | locations p =>
    cases h with
    | location howner =>
      obtain ⟨hscope, -⟩ := Prod.mk.inj (Option.some.inj hkey)
      obtain rfl := Scope.locations.inj hscope
      rw [namedScope, scope?, hs.nameOf_eq rfl howner, howner]
      rfl
    | _ => exact absurd hkey (by simp [Item.key?])
  | _ => rfl

theorem namedScope_of_scope? (hs : s.Keeps log) {named : NamedScope} {scope : Scope}
    (h : s.scope? named = some scope) : s.namedScope scope = named := by
  cases named with
  | locations p =>
    obtain ⟨r, hr, rfl⟩ := Option.map_eq_some_iff.mp h
    rw [namedScope, hs.nameOf_eq rfl hr]
  | _ =>
    obtain rfl := Option.some.inj h
    rfl

/-- A name is taken exactly if it leads to a declaration. -/
theorem mem_keys_iff (hs : s.IsDenoted) {key : NamedKey} : key ∈ s.keys ↔ s.Knows key := by
  have hkeeps := hs.reachable.keeps
  rw [keys, outline, List.filterMap_map, List.mem_filterMap]
  constructor
  · rintro ⟨d, hd, hkey⟩
    rw [Function.comp_apply, s.key?_named, Option.map_eq_some_iff] at hkey
    obtain ⟨⟨scope, name⟩, hkey, rfl⟩ := hkey
    obtain ⟨φ, hφ⟩ := hs.denoted d hd
    obtain ⟨id, hid⟩ := Log.exists_mem_entries hd
    exact ⟨scope, id, scope?_of_denotes hkeeps hφ hkey,
      hkeeps.holder?_eq_some_iff.mpr ⟨d, hid, hkey⟩⟩
  · rintro ⟨scope, id, hscope, hid⟩
    obtain ⟨d, hmem, hkey⟩ := hkeeps.holder?_eq_some_iff.mp hid
    have hitem : d.item.key? = some (scope, key.2) := hkey
    refine ⟨d, Log.snd_mem_of_mem_entries hmem, ?_⟩
    rw [Function.comp_apply, s.key?_named, hitem, Option.map_some,
      namedScope_of_scope? hkeeps hscope]

/-- What a phrase denotes has its name free exactly if the name leads nowhere. -/
theorem isFree_iff (hs : s.Keeps log) (h : φ.Denotes s i) :
    (∀ key, i.key? = some key → s.names.lookup key = none) ↔
      ∀ key, (s.named i).key? = some key → ¬s.Knows key := by
  rw [s.key?_named]
  constructor
  · intro hfree key hkey hknows
    obtain ⟨⟨scope, name⟩, hscope, rfl⟩ := Option.map_eq_some_iff.mp hkey
    obtain ⟨scope', id, hscope', hid⟩ := hknows
    obtain rfl := Option.some.inj ((scope?_of_denotes hs h hscope).symm.trans hscope')
    exact absurd ((hfree _ hscope).symm.trans hid) (by simp)
  · rintro hfree ⟨scope, name⟩ hkey
    rw [Option.eq_none_iff_forall_ne_some]
    intro id hid
    refine hfree (s.namedScope scope, name) (by rw [hkey]; rfl) ?_
    exact ⟨scope, id, scope?_of_denotes hs h hkey, hid⟩

-- ============================================================================
-- References by name
-- ============================================================================

/-- In a namespace of one kind, a name that is held leads to a reference. -/
theorem holder?_iff_ref? (hs : s.Keeps log) {k : Kind} {scope : Scope} (hscope : scope.kinds = [k])
    {name : String} :
    (∃ id, s.holder? scope name = some id) ↔ ∃ r : Ref k, s.ref? k scope name = some r := by
  constructor
  · rintro ⟨⟨kind, index⟩, hid⟩
    obtain ⟨d, hmem, hkey⟩ := hs.holder?_eq_some_iff.mp hid
    have hkind := kind_mem_kinds_of_key hkey
    rw [hscope, List.mem_singleton, kind_of_mem_entries hmem] at hkind
    obtain rfl : kind = k := hkind
    exact ⟨⟨index⟩, (hs.ref?_eq_some_iff hscope).mpr ⟨d, hmem, hkey⟩⟩
  · rintro ⟨r, hr⟩
    obtain ⟨id, hid, -⟩ := Option.bind_eq_some_iff.mp hr
    exact ⟨id, hid⟩

theorem knows_process_iff (hs : s.Keeps log) {name : String} :
    s.Knows (.processes, name) ↔ ∃ p, s.process? name = some p := by
  have hheld : (∃ id, s.holder? .processes name = some id) ↔ ∃ p, s.process? name = some p :=
    holder?_iff_ref? hs rfl
  rw [← hheld]
  simp [Knows, scope?]

theorem knows_event_iff (hs : s.Keeps log) {name : String} :
    s.Knows (.events, name) ↔ ∃ e, s.event? name = some e := by
  have hheld : (∃ id, s.holder? .events name = some id) ↔ ∃ e, s.event? name = some e :=
    holder?_iff_ref? hs rfl
  rw [← hheld]
  simp [Knows, scope?]

theorem knows_location_iff (hs : s.Keeps log) {owner name : String} {p : ProcessRef}
    (howner : s.process? owner = some p) :
    s.Knows (.locations owner, name) ↔ ∃ l, s.location? p name = some l := by
  have hheld : (∃ id, s.holder? (.locations p) name = some id) ↔
      ∃ l, s.location? p name = some l := holder?_iff_ref? hs rfl
  rw [← hheld]
  simp [Knows, scope?, howner]

/-- Links stand for constraints exactly if their names lead to declarations. -/
theorem exists_constraints_iff (hs : s.Keeps log) {links : List Link} :
    (∃ constraints, List.Forall₂ (Link.Denotes s) links constraints) ↔
      ∀ key ∈ (NamedItem.sync (links.map Link.content)).references, s.Knows key := by
  induction links with
  | nil => exact iff_of_true ⟨[], .nil⟩ (by simp [NamedItem.references])
  | cons l links ih =>
    have hsplit : (NamedItem.sync ((l :: links).map Link.content)).references =
        [(.processes, l.process.text), (.events, l.event.text)] ++
          (NamedItem.sync (links.map Link.content)).references := rfl
    rw [hsplit, List.forall_mem_append, ← ih, List.forall_mem_cons, List.forall_mem_singleton,
      knows_process_iff hs, knows_event_iff hs]
    constructor
    · rintro ⟨constraints, hlinks⟩
      cases hlinks with
      | cons hl hlinks => exact ⟨⟨⟨_, hl.process⟩, ⟨_, hl.event⟩⟩, ⟨_, hlinks⟩⟩
    · rintro ⟨⟨⟨p, hp⟩, e, he⟩, constraints, hlinks⟩
      exact ⟨⟨p, e, l.strength, l.span⟩ :: constraints, .cons ⟨hp, he, rfl, rfl⟩ hlinks⟩

/-- A phrase whose numerals are in range denotes something exactly if the names that it refers to
lead to declarations. -/
theorem exists_denotes_iff (hs : s.Keeps log) (hm : φ.named? = some m) :
    (∃ i, φ.Denotes s i) ↔ ∀ key ∈ m.references, s.Knows key := by
  cases φ with
  | clock size name =>
    obtain ⟨n, hn, rfl⟩ := Option.map_eq_some_iff.mp hm
    rw [toOption_eq_some_iff] at hn
    exact iff_of_true ⟨_, .clock hn⟩ (by simp [NamedItem.references])
  | int size min max initial name =>
    obtain ⟨n, hn, hm⟩ := Option.bind_eq_some_iff.mp hm
    obtain ⟨lo, hlo, hm⟩ := Option.bind_eq_some_iff.mp hm
    obtain ⟨hi, hhi, hm⟩ := Option.bind_eq_some_iff.mp hm
    obtain ⟨v, hv, hm⟩ := Option.bind_eq_some_iff.mp hm
    obtain rfl := Option.some.inj hm
    rw [toOption_eq_some_iff] at hn hlo hhi hv
    exact iff_of_true ⟨_, .int hn hlo hhi hv⟩ (by simp [NamedItem.references])
  | event name =>
    obtain rfl := Option.some.inj hm
    exact iff_of_true ⟨_, .event name⟩ (by simp [NamedItem.references])
  | process name =>
    obtain rfl := Option.some.inj hm
    exact iff_of_true ⟨_, .process name⟩ (by simp [NamedItem.references])
  | location owner name =>
    obtain rfl := Option.some.inj hm
    rw [NamedItem.references, List.forall_mem_singleton, knows_process_iff hs]
    constructor
    · rintro ⟨i, h⟩
      cases h with
      | location howner => exact ⟨_, howner⟩
    · rintro ⟨p, howner⟩
      exact ⟨_, .location howner⟩
  | edge owner target source label =>
    obtain rfl := Option.some.inj hm
    simp only [NamedItem.references, List.forall_mem_cons, List.not_mem_nil, false_imp_iff,
      implies_true, and_true, knows_process_iff hs, knows_event_iff hs]
    constructor
    · rintro ⟨i, h⟩
      cases h with
      | edge howner htarget hsource hlabel =>
        -- both ends are looked up among the locations of the process that is found first
        exact ⟨⟨_, howner⟩, (knows_location_iff hs howner).mpr ⟨_, htarget⟩,
          (knows_location_iff hs howner).mpr ⟨_, hsource⟩, ⟨_, hlabel⟩⟩
    · rintro ⟨⟨p, howner⟩, htarget, hsource, e, hlabel⟩
      obtain ⟨t, htarget⟩ := (knows_location_iff hs howner).mp htarget
      obtain ⟨o, hsource⟩ := (knows_location_iff hs howner).mp hsource
      exact ⟨_, .edge howner htarget hsource hlabel⟩
  | sync links =>
    obtain rfl := Option.some.inj hm
    rw [← exists_constraints_iff hs]
    constructor
    · rintro ⟨i, h⟩
      cases h with
      | sync hlinks => exact ⟨_, hlinks⟩
    · rintro ⟨constraints, hlinks⟩
      exact ⟨_, .sync hlinks⟩

-- ============================================================================
-- What is accepted
-- ============================================================================

/-- The store finds no fault with what a phrase denotes, unless the name is taken. -/
theorem Reachable.fault?_of_denotes (hs : s.Reachable) (h : φ.Denotes s i) (hsized : i.IsSized)
    (hfree : ∀ key, i.key? = some key → s.names.lookup key = none) : s.fault? i = none := by
  have hresolve := resolve_of_denotes h hsized hfree
  cases h with
  | @sync links constraints hlinks =>
    rw [hs.fault?_sync_eq_none_iff]
    refine forall_of_forall₂ (fun c l hl => ?_) hlinks.flip
    exact hs.resolves_of_constraint (Link.constraint_eq_ok_iff.mpr hl)
  | _ => exact hs.fault?_of_resolve (by simp [Phrase.draft, DraftItem.kind]) hresolve

/-- **What is accepted** can be told by names. -/
theorem denotes_iff_fits (hs : s.IsDenoted) (check : BoundsCheck) (hm : φ.named? = some m) :
    (∃ i, φ.Denotes s i ∧ i.IsSized ∧ (check = .error → i.IsInBounds) ∧ s.fault? i = none) ↔
      m.Fits check s.keys := by
  have hkeeps := hs.reachable.keeps
  have hnamed : ∀ i, φ.Denotes s i → s.named i = m := fun i h =>
    Option.some.inj ((named?_of_denotes hkeeps h).symm.trans hm)
  constructor
  · rintro ⟨i, h, hsized, hbounds, hfault⟩
    obtain rfl := hnamed i h
    have hfree : ∀ key, i.key? = some key → s.names.lookup key = none := fun key hkey =>
      lookup_eq_none_of_fault (d := ⟨i, {}, default⟩) hfault hkey
    refine ⟨(s.isSound_named check i).mpr ⟨hsized, hbounds⟩, fun key hkey hmem => ?_,
      fun key hkey => ?_⟩
    · exact (isFree_iff hkeeps h).mp hfree key hkey ((mem_keys_iff hs).mp hmem)
    · exact (mem_keys_iff hs).mpr ((exists_denotes_iff hkeeps hm).mp ⟨i, h⟩ key hkey)
  · intro hfits
    obtain ⟨i, h⟩ := (exists_denotes_iff hkeeps hm).mpr fun key hkey =>
      (mem_keys_iff hs).mp (hfits.references key hkey)
    obtain rfl := hnamed i h
    obtain ⟨hsized, hbounds⟩ := (s.isSound_named check i).mp hfits.isSound
    have hfree := (isFree_iff hkeeps h).mpr fun key hkey hknows =>
      hfits.isFree key hkey ((mem_keys_iff hs).mpr hknows)
    exact ⟨i, h, hsized, hbounds, hs.reachable.fault?_of_denotes h hsized hfree⟩

/-- The outline goes on with what is taken. -/
theorem IsDenoted.push (hs : s.IsDenoted) (h : φ.Denotes s i) (hfault : s.fault? i = none)
    (as : Attributes) (span : Span) :
    (s.push ⟨i, as, span⟩).IsDenoted ∧
      (s.push ⟨i, as, span⟩).outline = s.outline ++ [⟨s.named i, as.withoutSpans⟩] := by
  have hkeeps := hs.reachable.keeps
  have hpush : (s.push ⟨i, as, span⟩).Reachable := hs.reachable.push hfault
  have hall : (s.push ⟨i, as, span⟩).declarations = s.declarations ++ [⟨i, as, span⟩] :=
    (appends_push (d := ⟨i, as, span⟩) hkeeps hfault).declarations
  have hext : s.Extends (s.push ⟨i, as, span⟩) := extends_push hfault
  -- the names of what is there already stay, as the phrases it comes from say the same
  have hsame : ∀ {ψ : Phrase} {j : Item}, ψ.Denotes s j →
      (s.push ⟨i, as, span⟩).named j = s.named j := fun hj =>
    Option.some.inj ((named?_of_denotes hpush.keeps (hj.mono hext)).symm.trans
      (named?_of_denotes hkeeps hj))
  refine ⟨⟨hpush, ?_⟩, ?_⟩
  · rw [hall]
    refine List.forall_mem_append.mpr ⟨fun d hd => ?_, List.forall_mem_singleton.mpr ?_⟩
    · obtain ⟨ψ, hψ⟩ := hs.denoted d hd
      exact ⟨ψ, hψ.mono hext⟩
    · exact ⟨φ, h.mono hext⟩
  · rw [outline, hall, List.map_append, List.map_singleton, hsame h, outline]
    congr 1
    refine List.map_congr_left fun d hd => ?_
    obtain ⟨ψ, hψ⟩ := hs.denoted d hd
    rw [hsame hψ]

/-- The warning about a draft can be told by names, up to where it stands. -/
theorem warning?_of_checkBounds (h : φ.Denotes s i) {check : BoundsCheck} {w : Option Diagnostic}
    (hw : (φ.draft s).checkBounds check = .ok w) :
    w.map Diagnostic.withoutSpans = (s.named i).warning? check := by
  cases h with
  | @int size min max initial name n lo hi v hsize hmin hmax hinitial =>
    have hproblem : ((Phrase.int size min max initial name).draft s).boundsProblem? =
        if InBounds lo hi v then none
        else some ((Problem.initialBounds name.text lo hi v).diagnostic initial.span) := by
      simp only [Phrase.draft, DraftItem.boundsProblem?, Lexeme.value_boundNumber hmin,
        Lexeme.value_boundNumber hmax, Lexeme.value_boundNumber hinitial]
      rfl
    unfold DraftItem.checkBounds at hw
    rw [hproblem] at hw
    rw [named, NamedItem.warning?]
    by_cases hin : InBounds lo hi v
    · rw [if_pos hin] at hw
      rw [if_neg (by simp [hin])]
      cases check <;> obtain rfl := Except.ok.inj hw <;> rfl
    · rw [if_neg hin] at hw
      cases check with
      | ignore =>
        obtain rfl := Except.ok.inj hw
        rw [if_neg (by simp)]
        rfl
      | warn =>
        obtain rfl := Except.ok.inj hw
        rw [if_pos ⟨rfl, hin⟩]
        rfl
      | error => exact absurd hw (by simp)
  | _ =>
    cases check <;> obtain rfl := Except.ok.inj hw <;> rfl

end Phrases

end Store

-- ============================================================================
-- One line
-- ============================================================================

/-- What words declare, told by names; `stop` ends them. -/
def declared? (ws : List Word) (stop : Word) : Option NamedDeclaration :=
  match (Phrase.opening.read ws).outcome stop with
  | .ok (φ, as) => φ.named?.map fun m => ⟨m, as.withoutSpans⟩
  | .error _ => none

def Line.declared? (l : Line) : Option NamedDeclaration := TimedNet.declared? l.words l.stop

theorem declared?_eq_some_iff {ws : List Word} {stop : Word} {m : NamedDeclaration} :
    declared? ws stop = some m ↔ ∃ φ as, (Phrase.opening.read ws).outcome stop = .ok (φ, as) ∧
      φ.named? = some m.item ∧ as.withoutSpans = m.attributes := by
  unfold declared?
  split
  · next φ as houtcome =>
    rw [Option.map_eq_some_iff]
    constructor
    · rintro ⟨i, hi, rfl⟩
      exact ⟨φ, as, houtcome, hi, rfl⟩
    · rintro ⟨φ', as', houtcome', hi, has⟩
      obtain ⟨rfl, rfl⟩ := Prod.mk.inj (Except.ok.inj (houtcome.symm.trans houtcome'))
      exact ⟨m.item, hi, by rw [has]⟩
  · next f houtcome =>
    refine iff_of_false (by simp) ?_
    rintro ⟨φ, as, hok, -⟩
    exact absurd (houtcome.symm.trans hok) (by simp)

namespace Store

variable {s : Store} {check : BoundsCheck} {stop : Word} {line : List Word}

/-- A line about which nothing is said that is an error declares something that fits. -/
theorem exists_fits_of_enter (hs : s.IsDenoted) (hline : Lexical true (line.map Word.shape))
    (hclean : ∀ d ∈ (s.enter check stop line).diagnostics, d.isError = false) :
    ∃ m, declared? line stop = some m ∧ m.item.Fits check s.keys := by
  obtain ⟨φ, as, i, houtcome, hdenotes, hdeclarable, -⟩ := denotes_of_enter hline hclean
  have hnamed := named?_of_denotes hs.reachable.keeps hdenotes
  refine ⟨⟨s.named i, as.withoutSpans⟩, declared?_eq_some_iff.mpr ⟨φ, as, houtcome, hnamed, rfl⟩, ?_⟩
  exact (denotes_iff_fits hs check hnamed).mp
    ⟨i, hdenotes, hdeclarable.isSized, hdeclarable.isInBounds, hdeclarable.fault⟩

/-- **One line.** What fits is added to the outline, with at most a warning. -/
theorem enter_of_fits (hs : s.IsDenoted) (hline : Lexical true (line.map Word.shape))
    {m : NamedDeclaration} (hm : declared? line stop = some m) (hfits : m.item.Fits check s.keys) :
    let entry := s.enter check stop line
    entry.store.IsDenoted ∧ entry.store.outline = s.outline ++ [m] ∧
      entry.diagnostics.map Diagnostic.withoutSpans = (m.item.warning? check).toList ∧
      ∀ d ∈ entry.diagnostics, d.isError = false := by
  obtain ⟨item, attributes⟩ := m
  obtain ⟨φ, as, houtcome, hnamed, rfl⟩ := declared?_eq_some_iff.mp hm
  obtain ⟨i, hdenotes, hsized, hbounds, hfault⟩ := (denotes_iff_fits hs check hnamed).mpr hfits
  obtain rfl : s.named i = item :=
    Option.some.inj ((named?_of_denotes hs.reachable.keeps hdenotes).symm.trans hnamed)
  obtain ⟨⟨-, hparts⟩, -⟩ := Place.sound_of_outcome Phrase.sound_opening hline houtcome
  -- nothing is wrong with a part of the line, so a warning is all that can be said
  have hfaultless := hdenotes.fault?_eq_none
  have hnotes : (Phrase.opening.read line).parts.filterMap (Part.fault? s) = [] := by
    rw [hparts]
    exact List.filterMap_eq_nil_iff.mpr hfaultless
  obtain ⟨a, haccept, hstore⟩ := (accept_eq_ok_iff hfaultless check as
    ((Phrase.opening.read line).span stop) _).mpr ⟨i, hdenotes, hsized, hbounds, hfault, rfl⟩
  have hentry : s.enter check stop line =
      ⟨a.warning.toList, a.store, (Phrase.opening.read line).left .start stop⟩ := by
    rw [enter_of_accepted houtcome haccept, hnotes, List.nil_append]
  have hwarning := warning?_of_checkBounds hdenotes (checkBounds_of_accept haccept)
  intro entry
  have hentry : entry = _ := hentry
  rw [hentry, hstore]
  refine ⟨(hs.push hdenotes hfault as _).1, (hs.push hdenotes hfault as _).2, ?_, fun d hd => ?_⟩
  · rw [← hwarning]
    cases a.warning <;> rfl
  · exact (isWarning_of_accept haccept (Option.mem_toList.mp hd)).1

end Store

-- ============================================================================
-- Lines one after the other
-- ============================================================================

/-- Declarations each of which fits behind names that are taken and those declared before it. -/
def Allowed (check : BoundsCheck) : List NamedKey → List NamedDeclaration → Prop
  | _, [] => True
  | taken, m :: ms =>
    m.item.Fits check taken ∧ Allowed check (taken ++ m.item.key?.toList) ms

namespace Store

variable {s : Store} {check : BoundsCheck} {ls : List Line}

/-- With a declaration its name is taken. -/
theorem keys_of_outline {t : Store} {m : NamedDeclaration} (h : t.outline = s.outline ++ [m]) :
    t.keys = s.keys ++ m.item.key?.toList := by
  have hlast : [m].filterMap (fun m => m.item.key?) = m.item.key?.toList := by
    rw [List.filterMap_cons]
    cases m.item.key? <;> rfl
  rw [keys, h, List.filterMap_append, hlast, keys]

/-- Lines about which nothing is said that is an error declare what is allowed. -/
theorem allowed_of_enterLines (hs : s.IsDenoted)
    (hls : ∀ l ∈ ls, Lexical true (l.words.map Word.shape))
    (hclean : ∀ d ∈ (s.enterLines check ls).1, d.isError = false) :
    (∀ l ∈ ls, l.declared?.isSome = true) ∧
      Allowed check s.keys (ls.filterMap Line.declared?) := by
  induction ls generalizing s with
  | nil => exact ⟨by simp, trivial⟩
  | cons l ls ih =>
    obtain ⟨hl, hls⟩ := List.forall_mem_cons.mp hls
    obtain ⟨hfirst, hothers⟩ := List.forall_mem_append.mp hclean
    obtain ⟨m, hm, hfits⟩ := exists_fits_of_enter hs hl hfirst
    obtain ⟨hdenoted, houtline, -⟩ := enter_of_fits hs hl hm hfits
    obtain ⟨hsome, hallowed⟩ := ih hdenoted hls hothers
    rw [keys_of_outline houtline] at hallowed
    have hm : l.declared? = some m := hm
    rw [List.filterMap_cons_some hm]
    exact ⟨List.forall_mem_cons.mpr ⟨by rw [hm]; rfl, hsome⟩, hfits, hallowed⟩

/-- **All lines.** What is allowed is added to the outline, with no more than the warnings. -/
theorem enterLines_of_allowed (hs : s.IsDenoted)
    (hls : ∀ l ∈ ls, Lexical true (l.words.map Word.shape))
    (hsome : ∀ l ∈ ls, l.declared?.isSome = true)
    (hallowed : Allowed check s.keys (ls.filterMap Line.declared?)) :
    let entered := s.enterLines check ls
    entered.2.outline = s.outline ++ ls.filterMap Line.declared? ∧
      entered.1.map Diagnostic.withoutSpans =
        (ls.filterMap Line.declared?).filterMap (fun m => m.item.warning? check) ∧
      ∀ d ∈ entered.1, d.isError = false := by
  induction ls generalizing s with
  | nil => exact ⟨(List.append_nil _).symm, rfl, by simp [enterLines]⟩
  | cons l ls ih =>
    obtain ⟨hl, hls⟩ := List.forall_mem_cons.mp hls
    obtain ⟨hfirst, hsome⟩ := List.forall_mem_cons.mp hsome
    obtain ⟨m, hm⟩ := Option.isSome_iff_exists.mp hfirst
    rw [List.filterMap_cons_some hm] at hallowed ⊢
    obtain ⟨hfits, hallowed⟩ := hallowed
    obtain ⟨hdenoted, houtline, hwarnings, hclean⟩ := enter_of_fits hs hl hm hfits
    rw [← keys_of_outline houtline] at hallowed
    obtain ⟨houtlines, hmore, hclean'⟩ := ih hdenoted hls hsome hallowed
    refine ⟨?_, ?_, List.forall_mem_append.mpr ⟨hclean, hclean'⟩⟩
    · rw [houtline, List.append_assoc] at houtlines
      exact houtlines
    · show List.map _ ((s.enter check l.stop l.words).diagnostics ++ _) = _
      rw [List.map_append, hwarnings, hmore, List.filterMap_cons]
      cases m.item.warning? check <;> rfl

end Store

end TimedNet
