/-
  TimedNet.Proofs.Session.LaterText

  What stands further down does not matter for the lines above. A text with a newline at its end
  has the same lines when more text follows (`linesOf_newline`), the loop over them does not look
  ahead, and it never changes what is in the store (`Reachable.goesOn_enterLines`). So what is said
  about the text is the beginning of what is said about the longer one, and a network that the
  longer one declares goes on where that of the shorter one ends (`parse_of_laterText`).
-/
import TimedNet.Proofs.Session.Alike
import TimedNet.Proofs.Session.Rows

namespace TimedNet

-- ============================================================================
-- Stores
-- ============================================================================

namespace Store

variable {s : Store}

/-- **One line.** Whatever it says, the store goes on where it ends. -/
theorem Reachable.goesOn_enter (hs : s.Reachable) (check : BoundsCheck) (close : Word)
    (ws : List Word) : s.GoesOn (s.enter check close ws).store := by
  rcases s.store_of_enter check close ws with hsame | ⟨φ, as, i, -, -, hfault, hpush⟩
  · rw [hsame]
    exact .refl s
  · rw [hpush]
    exact hs.goesOn_push hfault

theorem Reachable.goesOn_enterLines (hs : s.Reachable) (check : BoundsCheck) (ls : List Line) :
    s.GoesOn (s.enterLines check ls).2 := by
  induction ls generalizing s with
  | nil => exact .refl s
  | cons l ls ih =>
    exact (hs.goesOn_enter check l.stop l.words).trans (ih (hs.enter check l.stop l.words))

end Store

-- ============================================================================
-- Lines
-- ============================================================================

/-- The network that lines declare of which the first has to declare the network itself. -/
def linesDeclare (check : BoundsCheck) (first : Line) (others : List Line) : Option System :=
  match (Header.opening.read first.words).outcome first.stop with
  | .error _ => none
  | .ok (name, as) => some ⟨name.text, as, (Header.opening.read first.words).span first.stop,
      (Store.empty.enterLines check others).2⟩

/-- A network `n` that goes on where another one, `m`, ends. -/
structure System.GoesOn (m n : System) : Prop where
  name : m.name = n.name
  attributes : m.attributes = n.attributes
  span : m.span = n.span
  store : m.store.GoesOn n.store

variable {check : BoundsCheck} {first : Line} {upper lower : List Line}

/-- More lines have more to be said, behind what is said anyway. -/
theorem linesSay_prefix :
    linesSay check first upper <+: linesSay check first (upper ++ lower) := by
  unfold linesSay
  split
  · exact List.prefix_refl _
  · rw [Store.enterLines_append]
    exact List.prefix_append _ _

theorem goesOn_of_linesDeclare {n : System}
    (h : linesDeclare check first (upper ++ lower) = some n) :
    ∃ m, linesDeclare check first upper = some m ∧ m.GoesOn n := by
  unfold linesDeclare at h ⊢
  split at h
  · exact absurd h (by simp)
  · next name as houtcome =>
    obtain rfl := Option.some.inj h
    have hreach := Store.Reachable.empty.enterLines check upper
    refine ⟨_, rfl, rfl, rfl, rfl, ?_⟩
    rw [Store.enterLines_append]
    exact hreach.goesOn_enterLines check lower

-- ============================================================================
-- Texts
-- ============================================================================

/-- **What network a text is read as**, if there is no limit on errors: the one that its lines
declare, unless there is an error among what is said about them. -/
theorem system_parse_eq_some_iff {source : String} {options : Options}
    (hlimit : options.maxErrors = none) {others : List Line}
    (hlines : linesOf source.toList = first :: others) {n : System} :
    (parse source options).system = some n ↔
      (∀ d ∈ linesSay options.boundsCheck first others, d.isError = false) ∧
        linesDeclare options.boundsCheck first others = some n := by
  let u := Session.new (Token.scan source) (.ofText source) options .empty
  have hfile : ∀ w ∈ u.words, w.kind ≠ .endOfFile := kind_ne_of_mem_wordsOf source.toList
  have hnetwork : u.build.network = linesDeclare options.boundsCheck first others := by
    rw [linesDeclare]
    rcases u.build_by_line rfl hfile hlines (Or.inl hlimit) with
      ⟨f, houtcome, hnone, -⟩ | ⟨name, as, houtcome, hsome, -⟩
    · rw [houtcome, hnone]
      rfl
    · rw [houtcome, hsome]
      rfl
  obtain ⟨ds, hsays, hsome⟩ :=
    Session.says_new_read (Token.scan source) (.ofText source) options .empty
  have hds : linesSay options.boundsCheck first others = ds := by
    rw [← diagnostics_parse hlimit hlines]
    exact hsays.entries
  rw [hds, ← hsome, ← hnetwork]
  constructor
  · intro hread
    exact ⟨Option.isSome_of_eq_some hread, (Session.build_of_read hread).1⟩
  · rintro ⟨hgiven, hn⟩
    obtain ⟨m, hread⟩ := Option.isSome_iff_exists.mp hgiven
    have hm := (Session.build_of_read hread).1
    rw [← Option.some.inj (hm.symm.trans hn)]
    exact hread

theorem linesOf_nil : linesOf [] = [] := by
  rw [linesOf, wordsOf, Token.scanFrom]
  rfl

/-- **Later text** does not matter for what stands above it. Without a limit on errors, and with any
check of bounds, what is said about a text with a newline at its end is said first, word for word,
if more text follows. If the longer text is read as a network, so is the shorter one, and the first
declarations of the longer network are those of the shorter one, with the same ids and places. -/
theorem parse_of_laterText {above : String} {options : Options} (hlimit : options.maxErrors = none)
    (habove : ∃ t ∈ Token.scan above, t.kind ≠ .endOfLine) (below : String) :
    let early := parse (above ++ "\n") options
    let late := parse (above ++ "\n" ++ below) options
    early.diagnostics <+: late.diagnostics ∧
      ∀ n, late.system = some n → ∃ m, early.system = some m ∧ m.GoesOn n := by
  intro early late
  obtain ⟨first, upper, hfirst⟩ := List.exists_cons_of_ne_nil (linesAbove_ne_nil habove)
  have hearly : linesOf (above ++ "\n").toList = first :: upper := by
    have htext : (above ++ "\n").toList = above.toList ++ '\n' :: [] := by
      simp [String.toList_append]
    rw [htext, linesOf_newline, linesOf_nil, List.map_nil, List.append_nil, hfirst]
  have hlate : ∃ lower, linesOf (above ++ "\n" ++ below).toList = first :: (upper ++ lower) := by
    have htext : (above ++ "\n" ++ below).toList = above.toList ++ '\n' :: below.toList := by
      simp [String.toList_append]
    exact ⟨_, by rw [htext, linesOf_newline, hfirst, List.cons_append]⟩
  obtain ⟨lower, hlate⟩ := hlate
  have hbegins : linesSay options.boundsCheck first upper <+:
      linesSay options.boundsCheck first (upper ++ lower) := linesSay_prefix
  have hsaid : early.diagnostics = linesSay options.boundsCheck first upper :=
    diagnostics_parse hlimit hearly
  have hsaid' : late.diagnostics = linesSay options.boundsCheck first (upper ++ lower) :=
    diagnostics_parse hlimit hlate
  refine ⟨?_, fun n hn => ?_⟩
  · rw [hsaid, hsaid']
    exact hbegins
  · obtain ⟨hclean, hdeclare⟩ := (system_parse_eq_some_iff hlimit hlate).mp hn
    obtain ⟨m, hm, hgoes⟩ := goesOn_of_linesDeclare hdeclare
    have hclean' := fun d hd => hclean d (hbegins.subset hd)
    exact ⟨m, (system_parse_eq_some_iff hlimit hearly).mpr ⟨hclean', hm⟩, hgoes⟩

/-- A text that already is a network, and more declarations of which one refers to it. -/
def eventSample : String := "system:s\nevent:e"

def linkingSample : String := "process:P\nsync:P@e\n"

theorem parse_of_laterText_eventSample :
    (parse (eventSample ++ "\n") {}).diagnostics <+:
        (parse (eventSample ++ "\n" ++ linkingSample) {}).diagnostics ∧
      ∃ n, (parse (eventSample ++ "\n" ++ linkingSample) {}).system = some n ∧ n.store.size = 3 ∧
        ∃ m, (parse (eventSample ++ "\n") {}).system = some m ∧ m.GoesOn n := by
  have habove : ∃ t ∈ Token.scan eventSample, t.kind ≠ .endOfLine := by decide +kernel
  have hreads : (parse (eventSample ++ "\n" ++ linkingSample) {}).system.map
      (fun n => n.store.size) = some 3 := by decide +kernel
  obtain ⟨n, hn, hsize⟩ := Option.map_eq_some_iff.mp hreads
  have hlimit : ({} : Options).maxErrors = none := rfl
  obtain ⟨hsaid, hsystem⟩ := parse_of_laterText hlimit habove linkingSample
  exact ⟨hsaid, n, hn, hsize, hsystem n hn⟩

end TimedNet
