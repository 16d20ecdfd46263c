/-
  TimedNet.Proofs.Store.Log

  A store as an append-only log. `entries log` numbers the declarations of a log by kind;
  `Store.Keeps s log` says that the shelves, the index of names and the order of a store agree on
  the log, and one accepted declaration appends to it (`keeps_push`).
-/
import Mathlib.Data.List.Basic
import Mathlib.Data.List.Induction
import TimedNet.Store.Insert

namespace TimedNet

-- ============================================================================
-- Logs
-- ============================================================================

namespace Log

/-- The id of a declaration that stands behind others. -/
def idBehind (earlier : List Declaration) (d : Declaration) : DeclarationId :=
  ⟨d.kind, earlier.countP fun e => e.kind == d.kind⟩

/-- Declarations with their ids, behind others. -/
def number (earlier : List Declaration) : List Declaration → List (DeclarationId × Declaration)
  | [] => []
  | d :: ds => (idBehind earlier d, d) :: number (earlier ++ [d]) ds

/-- The declarations of a log with their ids: the kind, and how many of the kind come earlier. -/
def entries (log : List Declaration) : List (DeclarationId × Declaration) := number [] log

/-- The declarations of a kind, in order. -/
def ofKind (log : List Declaration) (k : Kind) : List Declaration := log.filter fun d => d.kind == k

theorem number_append (earlier ds es : List Declaration) :
    number earlier (ds ++ es) = number earlier ds ++ number (earlier ++ ds) es := by
  induction ds generalizing earlier with
  | nil => simp [number]
  | cons d ds ih => simp [number, ih]

@[simp] theorem entries_nil : entries [] = [] := rfl

@[simp] theorem entries_concat (log : List Declaration) (d : Declaration) :
    entries (log ++ [d]) = entries log ++ [(idBehind log d, d)] := by
  simp [entries, number_append, number]

theorem map_snd_entries (log : List Declaration) : (entries log).map Prod.snd = log := by
  induction log using List.reverseRecOn with
  | nil => rfl
  | append_singleton log d ih => simp [ih]

theorem length_entries (log : List Declaration) : (entries log).length = log.length := by
  have hlen := congrArg List.length (map_snd_entries log)
  rwa [List.length_map] at hlen

theorem ofKind_concat (log : List Declaration) (d : Declaration) (k : Kind) :
    ofKind (log ++ [d]) k = if d.kind = k then ofKind log k ++ [d] else ofKind log k := by
  by_cases hk : d.kind = k
  · simp [ofKind, hk]
  · simp [ofKind, hk]

theorem length_ofKind (log : List Declaration) (d : Declaration) :
    (ofKind log d.kind).length = (idBehind log d).index := by
  rw [ofKind, idBehind, List.countP_eq_length_filter]

/-- An id leads to the declaration that it numbers. -/
theorem getElem?_ofKind_of_mem {log : List Declaration} {id : DeclarationId} {d : Declaration}
    (h : (id, d) ∈ entries log) : (ofKind log id.kind)[id.index]? = some d := by
  induction log using List.reverseRecOn with
  | nil => simp at h
  | append_singleton log e ih =>
    rw [entries_concat, List.mem_append, List.mem_singleton] at h
    rw [ofKind_concat]
    rcases h with h | h
    · have hget := ih h
      obtain ⟨hlt, -⟩ := List.getElem?_eq_some_iff.mp hget
      split
      · rw [List.getElem?_append_left hlt, hget]
      · exact hget
    · obtain ⟨rfl, rfl⟩ := Prod.mk.inj h
      have hkind : (idBehind log d).kind = d.kind := rfl
      rw [hkind, if_pos rfl, ← length_ofKind, List.getElem?_concat_length]

/-- The declarations that hold ids of a log are those of the log. -/
theorem snd_mem_of_mem_entries {log : List Declaration} {id : DeclarationId} {d : Declaration}
    (h : (id, d) ∈ entries log) : d ∈ log := by
  rw [← map_snd_entries log]
  exact List.mem_map_of_mem (f := Prod.snd) h

theorem exists_mem_entries {log : List Declaration} {d : Declaration} (h : d ∈ log) :
    ∃ id, (id, d) ∈ entries log := by
  rw [← map_snd_entries log] at h
  obtain ⟨⟨id, e⟩, hmem, rfl⟩ := List.mem_map.mp h
  exact ⟨id, hmem⟩

end Log

-- ============================================================================
-- What a store keeps
-- ============================================================================

namespace Store

open Log (entries idBehind)

/-- The parts of a store agree on a log. -/
structure Keeps (s : Store) (log : List Declaration) : Prop where
  ofKind : ∀ k, s.ofKind k = Log.ofKind log k
  order : s.order = (entries log).map Prod.fst
  names : ∀ key id, s.names.lookup key = some id ↔ ∃ d, (id, d) ∈ entries log ∧ d.key? = some key
  /-- No name is held twice in a namespace. -/
  nodup : (log.filterMap Declaration.key?).Nodup

theorem keeps_empty : Keeps .empty [] where
  ofKind k := by cases k <;> rfl
  order := rfl
  names key id := by simp [empty]
  nodup := List.nodup_nil

namespace Keeps

variable {s : Store} {log : List Declaration}

theorem nextId (h : s.Keeps log) (d : Declaration) : s.nextId d.kind = idBehind log d := by
  rw [Store.nextId, h.ofKind, Log.length_ofKind]
  rfl

theorem get? (h : s.Keeps log) (id : DeclarationId) :
    s.get? id = (Log.ofKind log id.kind)[id.index]? := by
  rw [Store.get?, h.ofKind]

theorem get?_of_mem (h : s.Keeps log) {id : DeclarationId} {d : Declaration}
    (hmem : (id, d) ∈ entries log) : s.get? id = some d := by
  rw [h.get?, Log.getElem?_ofKind_of_mem hmem]

/-- A name that is free is not declared in the log. -/
theorem key_notMem (h : s.Keeps log) {key : Scope × String} (hfree : s.names.lookup key = none) :
    key ∉ log.filterMap Declaration.key? := by
  intro hkey
  obtain ⟨d, hd, hdkey⟩ := List.mem_filterMap.mp hkey
  obtain ⟨id, hid⟩ := Log.exists_mem_entries hd
  have hsome := (h.names key id).mpr ⟨d, hid, hdkey⟩
  rw [hfree] at hsome
  exact absurd hsome (by simp)

end Keeps

theorem ofKind_push (s : Store) (d : Declaration) (k : Kind) :
    (s.push d).ofKind k = if d.kind = k then s.ofKind k ++ [d] else s.ofKind k := by
  simp only [push, ofKind]
  split
  · next hk =>
    subst hk
    rw [PerKind.get_set_self]
  · next hk => rw [PerKind.get_set_of_ne _ _ (Ne.symm hk)]

theorem lookup_register (names : List ((Scope × String) × DeclarationId)) (d : Declaration)
    (id : DeclarationId) (key : Scope × String) :
    (register names d id).lookup key = if d.key? = some key then some id else names.lookup key := by
  unfold register
  cases hd : d.key? with
  | none => simp
  | some other =>
    by_cases hkey : other = key
    · simp [hkey]
    · have hne : (key == other) = false := by simpa using Ne.symm hkey
      simp [List.lookup_cons, hne, hkey]

/-- **One accepted declaration.** If its name is free, a store that takes one more declaration keeps
the log with that declaration at its end. -/
theorem keeps_push {s : Store} {log : List Declaration} (h : s.Keeps log) {d : Declaration}
    (hfree : ∀ key, d.key? = some key → s.names.lookup key = none) :
    (s.push d).Keeps (log ++ [d]) where
  ofKind k := by rw [ofKind_push, Log.ofKind_concat, h.ofKind]
  order := by
    have horder : (s.push d).order = s.order ++ [s.nextId d.kind] := rfl
    rw [horder, h.order, h.nextId, Log.entries_concat, List.map_append]
    rfl
  names key id := by
    have hnames : (s.push d).names = register s.names d (s.nextId d.kind) := rfl
    rw [hnames, h.nextId, lookup_register, Log.entries_concat]
    split
    · next hkey =>
      -- the name is new, so only the new entry holds it
      constructor
      · intro hid
        obtain rfl := Option.some.inj hid
        exact ⟨d, by simp, hkey⟩
      · rintro ⟨e, he, hekey⟩
        rcases List.mem_append.mp he with he | he
        · have hold := (h.names key id).mpr ⟨e, he, hekey⟩
          rw [hfree key hkey] at hold
          exact absurd hold (by simp)
        · rw [(Prod.mk.inj (List.mem_singleton.mp he)).1]
    · next hkey =>
      rw [h.names]
      constructor
      · rintro ⟨e, he, hekey⟩
        exact ⟨e, List.mem_append_left _ he, hekey⟩
      · rintro ⟨e, he, hekey⟩
        rcases List.mem_append.mp he with he | he
        · exact ⟨e, he, hekey⟩
        · rw [(Prod.mk.inj (List.mem_singleton.mp he)).2] at hekey
          exact absurd hekey hkey
  nodup := by
    rw [List.filterMap_append]
    cases hd : d.key? with
    | none => simpa [hd] using h.nodup
    | some key =>
      have hnew := h.key_notMem (hfree key hd)
      rw [List.nodup_append]
      refine ⟨h.nodup, by simp [hd], ?_⟩
      intro a ha b hb hab
      obtain rfl : b = key := by simpa [hd] using hb
      exact hnew (hab ▸ ha)

end Store

end TimedNet
