/-
  TimedNet.Proofs.Store.Integrity

  No store refers to what it does not have. In the log of a reachable store every declaration
  refers to earlier entries only (`Log.Grounded`): each declaration is held against the store as
  it is before it is taken, and entries are never changed. What this says about ids, positions in
  the order and owners is `Integral`.
-/
import TimedNet.Proofs.Store.Insertion

namespace TimedNet

-- ============================================================================
-- Grounded logs
-- ============================================================================

namespace Log

/-- What is found under an id is an entry of the log. -/
theorem mem_entries_of_getElem? {log : List Declaration} {id : DeclarationId} {d : Declaration}
    (h : (ofKind log id.kind)[id.index]? = some d) : (id, d) ∈ entries log := by
  induction log using List.reverseRecOn with
  | nil => exact absurd h (by simp [ofKind])
  | append_singleton log e ih =>
    rw [entries_concat, List.mem_append, List.mem_singleton]
    rw [ofKind_concat] at h
    split at h
    · next hkind =>
      by_cases hlt : id.index < (ofKind log id.kind).length
      · rw [List.getElem?_append_left hlt] at h
        exact Or.inl (ih h)
      · right
        rw [List.getElem?_append_right (Nat.le_of_not_lt hlt)] at h
        obtain ⟨hzero, hd⟩ : id.index - (ofKind log id.kind).length = 0 ∧ e = d := by
          simpa [List.getElem?_singleton, eq_comm] using h
        have hlen : (ofKind log id.kind).length = (idBehind log e).index := by
          rw [← hkind, length_ofKind]
        obtain ⟨k, index⟩ := id
        have hindex : index = (idBehind log e).index := by
          simp only at hzero hlt hlen
          omega
        obtain rfl : e.kind = k := hkind
        rw [hd.symm, hindex]
        rfl
    · exact Or.inl (ih h)

/-- An entry that a location of a process is. -/
def Owns (log : List Declaration) (p : ProcessRef) (l : LocationRef) : Prop :=
  ∃ name attributes span, (l.id, ⟨.location p name, attributes, span⟩) ∈ entries log

/-- An item whose references are entries of a log, with the owners that they should have. -/
structure Supports (log : List Declaration) (i : Item) : Prop where
  references : ∀ id ∈ i.references, ∃ e, (id, e) ∈ entries log
  ends : ∀ p t o e, i = .edge p t o e → Owns log p t ∧ Owns log p o

/-- A log in which every declaration refers to earlier ones. -/
inductive Grounded : List Declaration → Prop where
  | nil : Grounded []
  | concat {log : List Declaration} {d : Declaration} :
    Grounded log → Supports log d.item → Grounded (log ++ [d])

/-- Every entry of a grounded log is supported by those before it. -/
theorem Grounded.supports {log : List Declaration} (h : Grounded log) {i : Nat} {d : Declaration}
    (hd : log[i]? = some d) : Supports (log.take i) d.item := by
  induction h with
  | nil => exact absurd hd (by simp)
  | @concat log e _ hsupports ih =>
    rcases Nat.lt_or_ge i log.length with hlt | hge
    · rw [List.getElem?_append_left hlt] at hd
      rw [List.take_append_of_le_length (Nat.le_of_lt hlt)]
      exact ih hd
    · rw [List.getElem?_append_right hge] at hd
      obtain ⟨hzero, rfl⟩ : i - log.length = 0 ∧ e = d := by
        simpa [List.getElem?_singleton, eq_comm] using hd
      obtain rfl : i = log.length := by omega
      rwa [List.take_left]

/-- The entries of the beginning of a log are the first entries of the log. -/
theorem entries_take (log : List Declaration) (i : Nat) :
    entries (log.take i) = (entries log).take i := by
  have hsplit : entries log = entries (log.take i) ++ number (log.take i) (log.drop i) := by
    have happend := number_append [] (log.take i) (log.drop i)
    rwa [List.take_append_drop, List.nil_append] at happend
  rcases Nat.le_total i log.length with hle | hge
  · have hlen : (entries (log.take i)).length = i := by
      rw [length_entries, List.length_take, Nat.min_eq_left hle]
    rw [hsplit, List.take_left' hlen]
  · have hlen : (entries log).length ≤ i := by rwa [length_entries]
    rw [List.take_of_length_le hge, List.take_of_length_le hlen]

end Log

-- ============================================================================
-- Integral stores
-- ============================================================================

namespace Store

/-- A store in which names are unique and references lead to earlier declarations. -/
structure Integral (s : Store) : Prop where
  /-- No name is declared twice in a namespace. -/
  unique : ∀ (i j : Nat) (d e : Declaration) key, s.declarations[i]? = some d →
    s.declarations[j]? = some e → d.key? = some key → e.key? = some key → i = j
  /-- The ids stand in the order of the declarations that they lead to. -/
  order : ∀ (i : Nat) (d : Declaration), s.declarations[i]? = some d →
    ∃ id, s.order[i]? = some id ∧ id.kind = d.kind ∧ s.get? id = some d
  /-- A reference leads to a declaration of its kind that stands before the referring one. -/
  references : ∀ (i : Nat) (d : Declaration), s.declarations[i]? = some d →
    ∀ id ∈ d.item.references, ∃ (j : Nat) (e : Declaration), j < i ∧ s.order[j]? = some id ∧
      s.declarations[j]? = some e ∧ s.get? id = some e ∧ e.kind = id.kind
  /-- Both ends of an edge are locations of its process. -/
  ends : ∀ d ∈ s.declarations, s.OwnsEnds d.item

variable {s : Store} {log : List Declaration}

theorem Keeps.mem_entries_of_get? (h : s.Keeps log) {id : DeclarationId} {d : Declaration}
    (hget : s.get? id = some d) : (id, d) ∈ Log.entries log := by
  rw [h.get?] at hget
  exact Log.mem_entries_of_getElem? hget

/-- What a store that finds no fault has is in its log. -/
theorem Keeps.supports (h : s.Keeps s.declarations) {i : Item} (hfault : s.fault? i = none) :
    Log.Supports s.declarations i := by
  have hchecks := h.fault?_eq_none_iff.mp hfault
  obtain ⟨-, hreferences, hends⟩ := (checks_hold_iff s i).mp hchecks
  have howns : ∀ p l, s.Owns p l → Log.Owns s.declarations p l := by
    rintro p l ⟨name, as, span, hget⟩
    exact ⟨name, as, span, h.mem_entries_of_get? hget⟩
  refine ⟨fun id hid => ?_, ?_⟩
  · obtain ⟨e, hget⟩ := hreferences id hid
    exact ⟨e, h.mem_entries_of_get? hget⟩
  · rintro p t o e rfl
    exact ⟨howns p t hends.1, howns p o hends.2⟩

/-- **Insertions keep a log grounded.** In a reachable store each declaration refers to such only as
were declared before it. -/
theorem Reachable.grounded (hs : s.Reachable) : Log.Grounded s.declarations := by
  induction hs with
  | empty => exact .nil
  | @insert s t d id hs hins ih =>
    obtain ⟨hfault, rfl, rfl⟩ := insert_eq_ok_iff.mp hins
    rw [(appends_push hs.keeps hfault).declarations]
    exact .concat ih (hs.keeps.supports hfault)

/-- Each position of the log has its entry. -/
theorem Keeps.getElem?_entries (h : s.Keeps s.declarations) {i : Nat} {id : DeclarationId}
    {d : Declaration} :
    (Log.entries s.declarations)[i]? = some (id, d) ↔
      s.order[i]? = some id ∧ s.declarations[i]? = some d ∧ s.get? id = some d := by
  have hfst : s.order[i]? = (Log.entries s.declarations)[i]?.map Prod.fst := by
    rw [h.order, List.getElem?_map]
  have hsnd : s.declarations[i]? = (Log.entries s.declarations)[i]?.map Prod.snd := by
    rw [← List.getElem?_map, Log.map_snd_entries]
  constructor
  · intro hi
    refine ⟨by rw [hfst, hi]; rfl, by rw [hsnd, hi]; rfl, ?_⟩
    exact h.get?_of_mem (List.mem_of_getElem? hi)
  · rintro ⟨hid, hd, -⟩
    rw [hfst] at hid
    rw [hsnd] at hd
    obtain ⟨⟨id', d'⟩, hi, rfl⟩ := Option.map_eq_some_iff.mp hid
    rw [hi] at hd
    rw [hi, ← Option.some.inj hd]

/-- A later declaration has another name. -/
theorem Keeps.key_ne_of_lt (h : s.Keeps log) {i j : Nat} (hlt : i < j) {d e : Declaration}
    (hi : log[i]? = some d) (hj : log[j]? = some e) {key : Scope × String}
    (hd : d.key? = some key) : e.key? ≠ some key := by
  have hpairs := List.pairwise_filterMap.mp h.nodup
  obtain ⟨hilen, rfl⟩ := List.getElem?_eq_some_iff.mp hi
  obtain ⟨hjlen, rfl⟩ := List.getElem?_eq_some_iff.mp hj
  intro he
  exact List.pairwise_iff_getElem.mp hpairs i j hilen hjlen hlt key hd key he rfl

/-- **Integrity.** In a reachable store names are unique in their namespaces, and every reference
leads to an earlier declaration, with the owner that it should have. -/
theorem Reachable.integral (hs : s.Reachable) : s.Integral where
  unique i j d e key hi hj hd he := by
    rcases Nat.lt_trichotomy i j with hlt | rfl | hlt
    · exact absurd he (hs.keeps.key_ne_of_lt hlt hi hj hd)
    · rfl
    · exact absurd hd (hs.keeps.key_ne_of_lt hlt hj hi he)
  order i d hi := by
    have hsnd : ((Log.entries s.declarations).map Prod.snd)[i]? = some d := by
      rwa [Log.map_snd_entries]
    rw [List.getElem?_map] at hsnd
    obtain ⟨⟨id, e⟩, hentry, rfl⟩ := Option.map_eq_some_iff.mp hsnd
    obtain ⟨horder, -, hget⟩ := hs.keeps.getElem?_entries.mp hentry
    exact ⟨id, horder, (kind_of_mem_entries (List.mem_of_getElem? hentry)).symm, hget⟩
  references i d hi id hid := by
    obtain ⟨e, hmem⟩ := (hs.grounded.supports hi).references id hid
    rw [Log.entries_take] at hmem
    obtain ⟨j, hj⟩ := List.getElem?_of_mem hmem
    rw [List.getElem?_take] at hj
    obtain ⟨hlt, hj⟩ := Option.ite_none_right_eq_some.mp hj
    obtain ⟨horder, hd, hget⟩ := hs.keeps.getElem?_entries.mp hj
    exact ⟨j, e, hlt, horder, hd, hget, kind_of_mem_entries (List.mem_of_getElem? hj)⟩
  ends d hd := by
    obtain ⟨i, hi⟩ := List.getElem?_of_mem hd
    have hends := (hs.grounded.supports hi).ends
    have howns : ∀ p l, Log.Owns (s.declarations.take i) p l → s.Owns p l := by
      rintro p l ⟨name, as, span, hmem⟩
      rw [Log.entries_take] at hmem
      exact ⟨name, as, span, hs.keeps.get?_of_mem (List.mem_of_mem_take hmem)⟩
    obtain ⟨item, as, span⟩ := d
    cases item with
    | edge p t o e =>
      obtain ⟨ht, ho⟩ := hends p t o e rfl
      exact ⟨howns p t ht, howns p o ho⟩
    | _ => trivial

end Store

end TimedNet
