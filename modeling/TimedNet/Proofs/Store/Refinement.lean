/-
  TimedNet.Proofs.Store.Refinement

  Runs of insertions, accepted and refused ones mixed, refine the log of the declarations that were
  accepted. An insertion that is refused leaves the log alone, one that is accepted appends to it
  (`keeps_insertAll`); what a store answers is then read off the log (`answers_of_keeps`).
-/
import TimedNet.Proofs.Store.Log

namespace TimedNet.Store

open Log (entries)

-- ============================================================================
-- One insertion
-- ============================================================================

theorem insert_eq_ok_iff {s s' : Store} {d : Declaration} {id : DeclarationId} :
    s.insert d = .ok (id, s') ↔ s.fault? d.item = none ∧ id = s.nextId d.kind ∧ s' = s.push d := by
  unfold insert
  cases s.fault? d.item with
  | none =>
    simp only [Except.ok.injEq, Prod.mk.injEq, true_and]
    exact ⟨fun h => ⟨h.1.symm, h.2.symm⟩, fun h => ⟨h.1.symm, h.2.symm⟩⟩
  | some e => simp

/-- Without a fault, the name of a declaration is free. -/
theorem lookup_eq_none_of_fault {s : Store} {d : Declaration} (h : s.fault? d.item = none)
    {key : Scope × String} (hkey : d.key? = some key) : s.names.lookup key = none := by
  have hname : s.nameFault? d.item = none := (Option.or_eq_none_iff.mp h).2
  have hitem : d.item.key? = some key := hkey
  rw [nameFault?, hitem, Option.bind_some] at hname
  exact Option.map_eq_none_iff.mp hname

/-- The store behind an insertion; one that is refused leaves it as it is. -/
def after (s : Store) (d : Declaration) : Store :=
  match s.insert d with
  | .ok (_, s') => s'
  | .error _ => s

-- ============================================================================
-- Runs of insertions
-- ============================================================================

/-- The store behind a sequence of insertions. -/
def insertAll (s : Store) (ds : List Declaration) : Store := ds.foldl after s

/-- The declarations of a sequence that are accepted, with the ids that are told. -/
def accepted (s : Store) : List Declaration → List (DeclarationId × Declaration)
  | [] => []
  | d :: ds =>
    match s.insert d with
    | .ok (id, s') => (id, d) :: accepted s' ds
    | .error _ => accepted s ds

/-- A run keeps the log that it began with, followed by what it accepted, and numbers it. -/
theorem keeps_insertAll {s : Store} {log : List Declaration} (h : s.Keeps log)
    (ds : List Declaration) :
    (s.insertAll ds).Keeps (log ++ (s.accepted ds).map Prod.snd) ∧
      entries log ++ s.accepted ds = entries (log ++ (s.accepted ds).map Prod.snd) := by
  induction ds generalizing s log with
  | nil => simpa [insertAll, accepted] using h
  | cons d ds ih =>
    have hcons : s.insertAll (d :: ds) = (s.after d).insertAll ds := rfl
    rw [hcons]
    cases hins : s.insert d with
    | error e =>
      have hsame : s.after d = s := by simp [after, hins]
      rw [hsame, accepted, hins]
      exact ih h
    | ok r =>
      obtain ⟨id, s'⟩ := r
      have hnext : s.after d = s' := by simp [after, hins]
      obtain ⟨hfault, hid, hs'⟩ := insert_eq_ok_iff.mp hins
      have hkeeps : s'.Keeps (log ++ [d]) :=
        hs' ▸ keeps_push h fun key hkey => lookup_eq_none_of_fault hfault hkey
      obtain ⟨hrun, hentries⟩ := ih hkeeps
      rw [hnext, accepted, hins]
      simp only [List.map_cons]
      rw [hid, h.nextId, List.append_cons log d]
      refine ⟨hrun, ?_⟩
      rw [← hentries, Log.entries_concat, List.append_assoc, List.singleton_append]

-- ============================================================================
-- What a store answers
-- ============================================================================

/-- Every question about a store is answered as a log would answer it. -/
structure Answers (s : Store) (log : List Declaration) : Prop where
  size : s.size = log.length
  isEmpty : s.isEmpty = log.isEmpty
  /-- Nothing is left out of the enumeration. -/
  declarations : s.declarations = log
  ofKind : ∀ k, s.ofKind k = log.filter fun d => d.kind == k
  get? : ∀ k i, s.get? ⟨k, i⟩ = (log.filter fun d => d.kind == k)[i]?
  locationsOf : ∀ p, s.locationsOf p = log.filter (isLocationOf p)
  /-- At most one entry of the log has a given name in a given namespace. -/
  unique : ∀ key, (log.filter fun d => d.key? == some key).length ≤ 1
  holder? : ∀ scope name id,
    s.holder? scope name = some id ↔ ∃ d, (id, d) ∈ entries log ∧ d.key? = some (scope, name)
  find? : ∀ scope name, s.find? scope name = log.find? fun d => d.key? == some (scope, name)
  process? : ∀ name r,
    s.process? name = some r ↔ ∃ d, (r.id, d) ∈ entries log ∧ d.key? = some (.processes, name)
  event? : ∀ name r,
    s.event? name = some r ↔ ∃ d, (r.id, d) ∈ entries log ∧ d.key? = some (.events, name)
  location? : ∀ p name r,
    s.location? p name = some r ↔ ∃ d, (r.id, d) ∈ entries log ∧ d.key? = some (.locations p, name)
  clock? : ∀ name,
    s.clock? name = log.find? fun d => d.kind == .clock && d.key? == some (.variables, name)
  int? : ∀ name,
    s.int? name = log.find? fun d => d.kind == .int && d.key? == some (.variables, name)

/-- The id of an entry has the kind of its declaration. -/
theorem kind_of_mem_entries {log : List Declaration} {id : DeclarationId} {d : Declaration}
    (h : (id, d) ∈ entries log) : d.kind = id.kind := by
  have hmem := List.mem_of_getElem? (Log.getElem?_ofKind_of_mem h)
  simpa [Log.ofKind] using (List.mem_filter.mp hmem).2

/-- A name has its namespace from the kind of its declaration. -/
theorem kind_mem_kinds_of_key {d : Declaration} {scope : Scope} {name : String}
    (h : d.key? = some (scope, name)) : d.kind ∈ scope.kinds := by
  obtain ⟨item, attributes, span⟩ := d
  cases item <;> simp_all [Declaration.key?, Item.key?, Declaration.kind, Item.kind] <;>
    (obtain ⟨rfl, -⟩ := h; simp [Scope.kinds])

namespace Keeps

variable {s : Store} {log : List Declaration}

theorem holder?_eq_some_iff (h : s.Keeps log) {scope : Scope} {name : String} {id : DeclarationId} :
    s.holder? scope name = some id ↔ ∃ d, (id, d) ∈ entries log ∧ d.key? = some (scope, name) :=
  h.names (scope, name) id

/-- Two declarations of the log with one name are the same. -/
theorem eq_of_key (h : s.Keeps log) {d e : Declaration} (hd : d ∈ log) (he : e ∈ log)
    {key : Scope × String} (hdkey : d.key? = some key) (hekey : e.key? = some key) : d = e := by
  obtain ⟨id, hid⟩ := Log.exists_mem_entries hd
  obtain ⟨id', hid'⟩ := Log.exists_mem_entries he
  have hlook := (h.names key id).mpr ⟨d, hid, hdkey⟩
  have hlook' := (h.names key id').mpr ⟨e, hid', hekey⟩
  obtain rfl : id = id' := Option.some.inj (hlook.symm.trans hlook')
  exact Option.some.inj ((h.get?_of_mem hid).symm.trans (h.get?_of_mem hid'))

/-- Looking for the one declaration with a name and a further property. -/
theorem find?_log_eq_some_iff (h : s.Keeps log) {scope : Scope} {name : String}
    {p : Declaration → Bool} {d : Declaration} :
    log.find? (fun d => p d && d.key? == some (scope, name)) = some d ↔
      d ∈ log ∧ p d = true ∧ d.key? = some (scope, name) := by
  constructor
  · intro hfind
    have hd := List.find?_some hfind
    simp only [Bool.and_eq_true, beq_iff_eq] at hd
    exact ⟨List.mem_of_find?_eq_some hfind, hd⟩
  · rintro ⟨hmem, hp, hkey⟩
    have hsome : (log.find? fun d => p d && d.key? == some (scope, name)).isSome := by
      rw [List.find?_isSome]
      exact ⟨d, hmem, by simp [hp, hkey]⟩
    obtain ⟨e, hfind⟩ := Option.isSome_iff_exists.mp hsome
    have he := List.find?_some hfind
    simp only [Bool.and_eq_true, beq_iff_eq] at he
    rw [hfind, h.eq_of_key hmem (List.mem_of_find?_eq_some hfind) hkey he.2]

/-- The declaration that holds a name is the entry of the log with that name. -/
theorem find?_eq_some_iff (h : s.Keeps log) {scope : Scope} {name : String} {d : Declaration} :
    s.find? scope name = some d ↔ d ∈ log ∧ d.key? = some (scope, name) := by
  rw [Store.find?, Option.bind_eq_some_iff]
  constructor
  · rintro ⟨id, hid, hget⟩
    obtain ⟨e, hmem, hkey⟩ := h.holder?_eq_some_iff.mp hid
    obtain rfl : e = d := Option.some.inj ((h.get?_of_mem hmem).symm.trans hget)
    exact ⟨Log.snd_mem_of_mem_entries hmem, hkey⟩
  · rintro ⟨hmem, hkey⟩
    obtain ⟨id, hid⟩ := Log.exists_mem_entries hmem
    exact ⟨id, h.holder?_eq_some_iff.mpr ⟨d, hid, hkey⟩, h.get?_of_mem hid⟩

theorem find?_eq (h : s.Keeps log) (scope : Scope) (name : String) :
    s.find? scope name = log.find? fun d => d.key? == some (scope, name) := by
  have hlog : (fun d : Declaration => d.key? == some (scope, name)) =
      fun d => (fun _ => true) d && d.key? == some (scope, name) := by
    funext d
    rw [Bool.true_and]
  ext d
  rw [h.find?_eq_some_iff, hlog, h.find?_log_eq_some_iff]
  simp

/-- A reference is found exactly to an entry of the log, if its kind goes with the namespace. -/
theorem ref?_eq_some_iff (h : s.Keeps log) {k : Kind} {scope : Scope} (hscope : scope.kinds = [k])
    {name : String} {r : Ref k} :
    s.ref? k scope name = some r ↔ ∃ d, (r.id, d) ∈ entries log ∧ d.key? = some (scope, name) := by
  rw [Store.ref?, Option.bind_eq_some_iff]
  constructor
  · rintro ⟨id, hid, hr⟩
    obtain ⟨d, hmem, hkey⟩ := h.holder?_eq_some_iff.mp hid
    have hkind : id.kind = k := by
      have hmem' := kind_mem_kinds_of_key hkey
      rw [hscope, List.mem_singleton] at hmem'
      rw [← kind_of_mem_entries hmem, hmem']
    rw [if_pos hkind] at hr
    obtain rfl := Option.some.inj hr
    exact ⟨d, by rwa [Ref.id, ← hkind], hkey⟩
  · rintro ⟨d, hmem, hkey⟩
    exact ⟨r.id, h.holder?_eq_some_iff.mpr ⟨d, hmem, hkey⟩, by simp [Ref.id]⟩

/-- Only a variable of the kind that is asked for is found. -/
theorem variableOf?_eq (h : s.Keeps log) (k : Kind) (name : String) :
    s.variableOf? k name = log.find? fun d => d.kind == k && d.key? == some (.variables, name) := by
  ext d
  rw [h.find?_log_eq_some_iff (p := fun d => d.kind == k), Store.variableOf?,
    Option.bind_eq_some_iff]
  constructor
  · rintro ⟨id, hid, hget⟩
    obtain ⟨e, hmem, hkey⟩ := h.holder?_eq_some_iff.mp hid
    split at hget
    · next hkind =>
      obtain rfl : e = d := Option.some.inj ((h.get?_of_mem hmem).symm.trans hget)
      exact ⟨Log.snd_mem_of_mem_entries hmem, by simp [kind_of_mem_entries hmem, hkind], hkey⟩
    · exact absurd hget (by simp)
  · rintro ⟨hmem, hkind, hkey⟩
    obtain ⟨id, hid⟩ := Log.exists_mem_entries hmem
    refine ⟨id, h.holder?_eq_some_iff.mpr ⟨d, hid, hkey⟩, ?_⟩
    rw [if_pos (by simpa [← kind_of_mem_entries hid] using hkind), h.get?_of_mem hid]

/-- The enumeration leads from the ids back to the log. -/
theorem declarations_eq (h : s.Keeps log) : s.declarations = log := by
  have hget : ∀ e ∈ entries log, s.get? e.1 = some e.2 := fun e he => h.get?_of_mem he
  calc s.declarations
      = (entries log).filterMap fun e => s.get? e.1 := by
        rw [declarations, h.order, List.filterMap_map]
        rfl
    _ = (entries log).filterMap fun e => some e.2 := List.filterMap_congr hget
    _ = log := by rw [List.filterMap_eq_map', Log.map_snd_entries]

theorem locationsOf_eq (h : s.Keeps log) (p : ProcessRef) :
    s.locationsOf p = log.filter (isLocationOf p) := by
  rw [Store.locationsOf, h.ofKind, Log.ofKind, List.filter_filter]
  refine List.filter_congr fun d _ => ?_
  obtain ⟨item, attributes, span⟩ := d
  cases item <;> simp [isLocationOf, Declaration.kind, Item.kind]

theorem unique (h : s.Keeps log) (key : Scope × String) :
    (log.filter fun d => d.key? == some key).length ≤ 1 := by
  have hcount := List.nodup_iff_count.mp h.nodup key
  rw [List.count_filterMap] at hcount
  rwa [← List.countP_eq_length_filter]

end Keeps

theorem answers_of_keeps {s : Store} {log : List Declaration} (h : s.Keeps log) :
    s.Answers log where
  size := by rw [Store.size, h.order, List.length_map, Log.length_entries]
  isEmpty := by
    rw [Store.isEmpty, h.order, List.isEmpty_map, ← Log.map_snd_entries log, List.isEmpty_map,
      Log.map_snd_entries]
  declarations := h.declarations_eq
  ofKind := h.ofKind
  get? k i := h.get? ⟨k, i⟩
  locationsOf := h.locationsOf_eq
  unique := h.unique
  holder? _ _ _ := h.holder?_eq_some_iff
  find? := h.find?_eq
  process? _ _ := h.ref?_eq_some_iff rfl
  event? _ _ := h.ref?_eq_some_iff rfl
  location? _ _ _ := h.ref?_eq_some_iff rfl
  clock? := h.variableOf?_eq .clock
  int? := h.variableOf?_eq .int

/-- **The store is an append-only log.** After any sequence of insertions into the empty store,
let the log be the declarations that were accepted, in order. The ids that were told are those of
the entries of the log: the kind, and the number of earlier entries of the kind. Every question
about the store is answered as the log would answer it. -/
theorem insertAll_answers_accepted (ds : List Declaration) :
    let log := (empty.accepted ds).map Prod.snd
    empty.accepted ds = entries log ∧ (empty.insertAll ds).Answers log := by
  obtain ⟨hkeeps, hentries⟩ := keeps_insertAll keeps_empty ds
  simp only [List.nil_append, Log.entries_nil] at hkeeps hentries
  exact ⟨hentries, answers_of_keeps hkeeps⟩

end TimedNet.Store
