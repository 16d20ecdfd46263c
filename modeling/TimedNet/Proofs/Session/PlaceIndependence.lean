/-
  TimedNet.Proofs.Session.PlaceIndependence

  Places do not matter. Tokens that agree in kinds and texts are read alike wherever they claim to
  stand: what is said and what is given out differs in its spans only. And no range, however odd,
  is in the way: whatever is said or given out stands at the span of some range of bytes.
-/
import TimedNet.Proofs.Session.Corresponds
import TimedNet.Proofs.Session.SharedReport
import TimedNet.Proofs.Spans
import TimedNet.Proofs.Text.Ranges
import TimedNet.Proofs.Token.Lexical

namespace TimedNet

-- ============================================================================
-- Without spans
-- ============================================================================

def Related.withoutSpan (r : Related) : Related := { r with span := default }

/-- What is said, wherever it is said. -/
def Diagnostic.withoutSpans (d : Diagnostic) : Diagnostic :=
  { d with span := default, related := d.related.map Related.withoutSpan }

theorem map_eq_of_forall₂ {α β γ : Type} {r : α → β → Prop} {f : α → γ} {g : β → γ}
    (hfg : ∀ a b, r a b → f a = g b) {as : List α} {bs : List β} (h : List.Forall₂ r as bs) :
    as.map f = bs.map g := by
  induction h with
  | nil => rfl
  | cons hab _ ih => rw [List.map_cons, List.map_cons, hfg _ _ hab, ih]

section WithoutSpans

variable {σ : Span → Span → Prop}

theorem Diagnostic.Corresponds.withoutSpans {d e : Diagnostic} (h : d.Corresponds σ e) :
    d.withoutSpans = e.withoutSpans := by
  have hrelated : d.related.map Related.withoutSpan = e.related.map Related.withoutSpan :=
    map_eq_of_forall₂ (fun r q hrq => by rw [Related.withoutSpan, Related.withoutSpan, hrq.message])
      h.related
  rw [Diagnostic.withoutSpans, Diagnostic.withoutSpans, h.code, h.message, h.severity, h.hint,
    hrelated]

theorem Attributes.Corresponds.withoutSpans {as bs : Attributes} (h : as.Corresponds σ bs) :
    as.withoutSpans = bs.withoutSpans := by
  rw [Attributes.withoutSpans, Attributes.withoutSpans]
  exact congrArg Attributes.mk (map_eq_of_forall₂
    (fun a b hab => Attribute.withoutSpans_eq_iff.mpr ⟨hab.key, hab.value⟩) h)

theorem Item.Corresponds.withoutSpans {i j : Item} (h : i.Corresponds σ j) :
    i.withoutSpans = j.withoutSpans := by
  cases h with
  | same => rfl
  | sync hcs =>
    refine congrArg Item.sync (map_eq_of_forall₂ (fun c d hcd => ?_) hcs)
    rw [SyncConstraint.withoutSpan, SyncConstraint.withoutSpan, hcd.process, hcd.event,
      hcd.strength]

theorem Declaration.Corresponds.withoutSpans {d e : Declaration} (h : d.Corresponds σ e) :
    d.withoutSpans = e.withoutSpans := by
  rw [Declaration.withoutSpans, Declaration.withoutSpans, h.item.withoutSpans,
    h.attributes.withoutSpans]

theorem Store.Corresponds.withoutSpans {s t : Store} (h : s.Corresponds σ t) :
    s.withoutSpans = t.withoutSpans := by
  have hshelf : ∀ k, (s.ofKind k).map Declaration.withoutSpans =
      (t.ofKind k).map Declaration.withoutSpans := fun k =>
    map_eq_of_forall₂ (fun _ _ hde => hde.withoutSpans) (h.ofKind k)
  have hshelves : s.shelves.map (List.map Declaration.withoutSpans) =
      t.shelves.map (List.map Declaration.withoutSpans) := by
    rw [PerKind.map, PerKind.map, PerKind.mk.injEq]
    exact ⟨hshelf .clock, hshelf .int, hshelf .event, hshelf .process, hshelf .location,
      hshelf .edge, hshelf .sync⟩
  rw [Store.withoutSpans, Store.withoutSpans, hshelves, h.names, h.order]

theorem System.Corresponds.withoutSpans {m n : System} (h : m.Corresponds σ n) :
    m.withoutSpans = n.withoutSpans := by
  rw [System.withoutSpans, System.withoutSpans, h.name, h.attributes.withoutSpans,
    h.store.withoutSpans]

end WithoutSpans

-- ============================================================================
-- Spans of what comes out
-- ============================================================================

/-- All spans of a diagnostic. -/
def Diagnostic.spans (d : Diagnostic) : List Span := d.span :: d.related.map Related.span

def Attributes.spans (as : Attributes) : List Span :=
  as.entries.flatMap fun a => [a.keySpan, a.valueSpan]

def Item.spans : Item → List Span
  | .sync constraints => constraints.map SyncConstraint.span
  | _ => []

def Declaration.spans (d : Declaration) : List Span :=
  d.span :: (d.item.spans ++ d.attributes.spans)

/-- All spans of a network. -/
def System.spans (n : System) : List Span :=
  n.span :: (n.attributes.spans ++ n.store.declarations.flatMap Declaration.spans)

theorem forall_of_forall₂ {α β : Type} {r : α → β → Prop} {Q : α → Prop}
    (hQ : ∀ a b, r a b → Q a) {as : List α} {bs : List β} (h : List.Forall₂ r as bs) :
    ∀ a ∈ as, Q a := by
  induction h with
  | nil => exact fun a ha => absurd ha List.not_mem_nil
  | cons hab _ ih => exact List.forall_mem_cons.mpr ⟨hQ _ _ hab, ih⟩

section Properties

variable {σ : Span → Span → Prop} {P : Span → Prop} (hP : ∀ a b, σ a b → P a)

include hP

theorem Diagnostic.Corresponds.forall_spans {d e : Diagnostic} (h : d.Corresponds σ e) :
    ∀ s ∈ d.spans, P s := by
  refine List.forall_mem_cons.mpr ⟨hP _ _ h.span, ?_⟩
  exact List.forall_mem_map.mpr (forall_of_forall₂ (fun r q hrq => hP _ _ hrq.span) h.related)

theorem Attributes.Corresponds.forall_spans {as bs : Attributes} (h : as.Corresponds σ bs) :
    ∀ s ∈ as.spans, P s := by
  intro s hs
  obtain ⟨a, ha, hs⟩ := List.mem_flatMap.mp hs
  have hboth : ∀ a ∈ as.entries, P a.keySpan ∧ P a.valueSpan := by
    refine forall_of_forall₂ (fun a b hab => ?_) h
    exact ⟨hP _ _ hab.keySpan, hP _ _ hab.valueSpan⟩
  rcases List.mem_pair.mp hs with rfl | rfl
  · exact (hboth a ha).1
  · exact (hboth a ha).2

theorem Declaration.Corresponds.forall_spans {d e : Declaration} (h : d.Corresponds σ e) :
    ∀ s ∈ d.spans, P s := by
  have hitem : ∀ s ∈ d.item.spans, P s := by
    obtain ⟨item, attributes, span⟩ := d
    obtain ⟨item', attributes', span'⟩ := e
    cases h.item with
    | same hi =>
      cases item with
      | sync constraints => exact absurd rfl hi
      | _ => exact fun s hs => absurd hs List.not_mem_nil
    | sync hcs =>
      exact List.forall_mem_map.mpr (forall_of_forall₂ (fun c d hcd => hP _ _ hcd.span) hcs)
  refine List.forall_mem_cons.mpr ⟨hP _ _ h.span, ?_⟩
  exact List.forall_mem_append.mpr ⟨hitem, h.attributes.forall_spans hP⟩

theorem System.Corresponds.forall_spans {m n : System} (h : m.Corresponds σ n) :
    ∀ s ∈ m.spans, P s := by
  refine List.forall_mem_cons.mpr ⟨hP _ _ h.span, ?_⟩
  refine List.forall_mem_append.mpr ⟨h.attributes.forall_spans hP, fun s hs => ?_⟩
  obtain ⟨d, hd, hs⟩ := List.mem_flatMap.mp hs
  obtain ⟨id, -, hget⟩ := List.mem_filterMap.mp hd
  rcases none_or_some (h.store.get? id) with ⟨hnone, -⟩ | ⟨d', e, hd', -, hde⟩
  · exact absurd (hget.symm.trans hnone) (by simp)
  · obtain rfl := Option.some.inj (hget.symm.trans hd')
    exact hde.forall_spans hP s hs

end Properties

-- ============================================================================
-- Sessions
-- ============================================================================

/-- Spans of ranges are closed under all that is made of them. -/
theorem LineIndex.compatible_isSpan (i : LineIndex) :
    Span.Compatible fun a b => a = b ∧ i.IsSpan a where
  point := by
    rintro a _ ⟨rfl, ha⟩
    exact ⟨rfl, ha.point⟩
  cover := by
    rintro a _ ⟨rfl, ha⟩ c _ ⟨rfl, hc⟩
    exact ⟨rfl, ha.cover hc⟩
  stretch := by
    rintro a _ ⟨rfl, ha⟩ c _ ⟨rfl, hc⟩
    exact ⟨rfl, ha.stretch hc⟩

namespace Session

/-- Sessions over tokens that correspond, as words, write to reports that do. -/
theorem corresponds_new {σ : Span → Span → Prop} {ts us : List Token} {index index' : LineIndex}
    (h : List.Forall₂ (fun t u => (t.word index).Corresponds σ (u.word index')) ts us)
    (hclose : ((Token.endOfFile index).word index).Corresponds σ
      ((Token.endOfFile index').word index')) (options : Options) {r q : Report}
    (hrq : r.Corresponds σ q) :
    (new ts index options r).Corresponds σ (new us index' options q) where
  options := rfl
  words := List.forall₂_map_left_iff.mpr (List.forall₂_map_right_iff.mpr h)
  close := hclose
  report := hrq
  earlierErrors := hrq.errorCount
  network := .none
  isFatal := rfl

theorem corresponds_new_of_shapes {ts us : List Token}
    (h : ts.map Token.shape = us.map Token.shape) (index index' : LineIndex) (options : Options)
    (report : Report) :
    (new ts index options report).Corresponds (fun _ _ => True) (new us index' options report) := by
  have hshapes : List.Forall₂ (fun t u : Token => t.shape = u.shape) ts us := by
    rw [← List.forall₂_map_right_iff, ← List.forall₂_map_left_iff, h]
    exact List.forall₂_same.mpr fun _ _ => rfl
  have hclose : ((Token.endOfFile index).word index).Corresponds (fun _ _ => True)
      ((Token.endOfFile index').word index') := ⟨rfl, rfl, trivial⟩
  refine corresponds_new (hshapes.imp fun t u htu => ?_) hclose options ⟨?_, rfl⟩
  · exact ⟨congrArg Prod.fst htu, congrArg Prod.snd htu, trivial⟩
  · refine List.forall₂_same.mpr fun d _ => ⟨rfl, trivial, rfl, rfl, rfl, ?_⟩
    exact List.forall₂_same.mpr fun _ _ => ⟨rfl, trivial⟩

theorem corresponds_new_of_ranges {ts : List Token} (h : ∀ t ∈ ts, t.start ≤ t.stop)
    (index : LineIndex) (options : Options) :
    (new ts index options .empty).Corresponds (fun a b => a = b ∧ index.IsSpan a)
      (new ts index options .empty) := by
  have hwords : ∀ t ∈ ts,
      (t.word index).Corresponds (fun a b => a = b ∧ index.IsSpan a) (t.word index) :=
    fun t ht => ⟨rfl, rfl, rfl, t.start, t.stop, h t ht, rfl⟩
  have hclose : index.IsSpan ((Token.endOfFile index).word index).span :=
    ⟨index.size, index.size, Nat.le_refl _, rfl⟩
  exact corresponds_new (List.forall₂_same.mpr hwords) ⟨rfl, rfl, rfl, hclose⟩ options ⟨.nil, rfl⟩

/-- **Places do not matter.** Tokens that agree in kinds and texts are read alike, with the same
options and behind the same diagnostics of others, however often: sessions over them give up at the
same time, say the same up to spans, and give out the same networks up to spans. Their ranges and
the lines of the text may be anything. All spans that come out are spans of ranges, if those of the
tokens start before they stop; and the position of an offset, or of the end of the text if that
comes first, is always exact. -/
theorem read_independent_of_places :
    (∀ (ts us : List Token), ts.map Token.shape = us.map Token.shape →
      ∀ (index index' : LineIndex) (options : Options) (report : Report) (calls : Nat),
        let s := (fun t : Session => t.read.2)^[calls] (new ts index options report)
        let t := (fun t : Session => t.read.2)^[calls] (new us index' options report)
        s.isFatal = t.isFatal ∧
          s.report.entries.map Diagnostic.withoutSpans =
            t.report.entries.map Diagnostic.withoutSpans ∧
          s.read.1.map System.withoutSpans = t.read.1.map System.withoutSpans) ∧
    (∀ ts : List Token, (∀ t ∈ ts, t.start ≤ t.stop) →
      ∀ (index : LineIndex) (options : Options) (report : Report) (calls : Nat),
        let s := (fun t : Session => t.read.2)^[calls] (new ts index options report)
        (∃ added, s.report.entries = report.entries ++ added ∧
          ∀ d ∈ added, ∀ span ∈ d.spans, index.IsSpan span) ∧
        ∀ n, s.read.1 = some n → ∀ span ∈ n.spans, index.IsSpan span) ∧
    ∀ (index : LineIndex) (offset : Nat),
      let p := index.position offset
      ∃ start, (0 :: index.starts)[p.line]? = some start ∧
        start + p.column = min offset index.size ∧
        ∀ next, (0 :: index.starts)[p.line + 1]? = some next → min offset index.size < next := by
  refine ⟨fun ts us h index index' options report calls => ?_,
    fun ts h index options report calls => ?_, LineIndex.position_exact⟩
  · have hlockstep := lockstep_corresponds Span.compatible_true
    have hnew := corresponds_new_of_shapes h index index' options report
    have hcalls := hlockstep.iterate_read hnew calls
    refine ⟨hcalls.isFatal, ?_, ?_⟩
    · exact map_eq_of_forall₂ (fun _ _ hde => hde.withoutSpans) hcalls.report.entries
    · rcases none_or_some (hlockstep.read hcalls).1 with ⟨hs, ht⟩ | ⟨m, n, hs, ht, hmn⟩
      · rw [hs, ht]
      · rw [hs, ht]
        exact congrArg some hmn.withoutSpans
  · have hlockstep := lockstep_corresponds index.compatible_isSpan
    have hcalls := hlockstep.iterate_read (corresponds_new_of_ranges h index options) calls
    have hP : ∀ a b : Span, a = b ∧ index.IsSpan a → index.IsSpan a := fun _ _ hab => hab.2
    rw [new_behind, iterate_read_behind]
    refine ⟨⟨_, rfl, ?_⟩, fun n hn => ?_⟩
    · exact forall_of_forall₂ (fun d e hde => hde.forall_spans hP) hcalls.report.entries
    · rw [read_behind] at hn
      rcases none_or_some (hlockstep.read hcalls).1 with ⟨hs, -⟩ | ⟨m, n', hs, -, hmn⟩
      · exact absurd (hn.symm.trans hs) (by simp)
      · obtain rfl := Option.some.inj (hn.symm.trans hs)
        exact hmn.forall_spans hP

/-- A name that is taken, and the same tokens at places that make no sense. -/
def takenSample : List Token := Token.scan "system:s\nevent:e\nevent:e\nsync:\n"

def scrambledSample : List Token :=
  takenSample.mapIdx fun k t => { t with start := 7 * k % 5, stop := 90 - k }

theorem read_independent_of_places_scrambledSample :
    takenSample.map Token.shape = scrambledSample.map Token.shape ∧
      (∀ t ∈ scrambledSample, t.start ≤ t.stop) ∧
      let s := (new takenSample (.ofText "system:s\nevent:e\nevent:e\nsync:\n") {} .empty).read.2
      let t := (new scrambledSample ⟨[30, 2], 40⟩ {} .empty).read.2
      s.report.entries.length = 2 ∧
        s.report.entries.map Diagnostic.withoutSpans =
          t.report.entries.map Diagnostic.withoutSpans ∧
        ∀ d ∈ t.report.entries, ∀ span ∈ d.spans, (LineIndex.mk [30, 2] 40).IsSpan span := by
  have hshapes : takenSample.map Token.shape = scrambledSample.map Token.shape := by
    decide +kernel
  have hranges : ∀ t ∈ scrambledSample, t.start ≤ t.stop := by decide +kernel
  obtain ⟨hplaces, hspans, -⟩ := read_independent_of_places
  obtain ⟨-, hsaid, -⟩ := hplaces takenSample scrambledSample hshapes
    (.ofText "system:s\nevent:e\nevent:e\nsync:\n") ⟨[30, 2], 40⟩ {} .empty 1
  obtain ⟨⟨added, hadded, hall⟩, -⟩ := hspans scrambledSample hranges ⟨[30, 2], 40⟩ {} .empty 1
  refine ⟨hshapes, hranges, by decide +kernel, hsaid, ?_⟩
  intro d hd
  have hentries : (new scrambledSample ⟨[30, 2], 40⟩ {} .empty).read.2.report.entries = added :=
    hadded
  exact hall d (hentries ▸ hd)

end Session

end TimedNet
