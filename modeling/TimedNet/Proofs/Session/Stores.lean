/-
  TimedNet.Proofs.Session.Stores

  The stores of sessions are reachable ones: whatever a line says, entering it leaves the store as
  it is or inserts one declaration (`store_of_enter`). So what holds of all reachable stores holds
  of the store of every network that is read, and of one that is not given out because of errors.
-/
import TimedNet.Proofs.Session.Soundness
import TimedNet.Proofs.Store.Integrity

namespace TimedNet

-- ============================================================================
-- One line
-- ============================================================================

namespace Store

variable {s : Store} {check : BoundsCheck}

/-- What a draft that is accepted adds. -/
theorem store_of_accept {d : Draft} {a : Acceptance} (h : s.accept check d = .ok a) :
    ∃ i, s.resolve d.item = .ok i ∧ s.fault? i = none ∧
      a.store = s.push ⟨i, d.attributes, d.span⟩ := by
  obtain ⟨i, w, hi, -, hfault, rfl⟩ := accept_eq_ok_cases h
  exact ⟨i, hi, hfault, rfl⟩

/-- **One line.** It leaves the store as it is, or adds what its phrase is resolved to. -/
theorem store_of_enter (s : Store) (check : BoundsCheck) (close : Word) (ws : List Word) :
    (s.enter check close ws).store = s ∨
      ∃ φ as i, (Phrase.opening.read ws).outcome close = .ok (φ, as) ∧
        s.resolve (φ.draft s) = .ok i ∧ s.fault? i = none ∧
        (s.enter check close ws).store =
          s.push ⟨i, as, (Phrase.opening.read ws).span close⟩ := by
  rcases s.enter_cases check close ws with ⟨f, -, -, hstore⟩ | ⟨φ, as, d, -, -, -, hstore⟩ |
    ⟨φ, as, a, houtcome, haccept, -, hstore⟩
  · exact Or.inl hstore
  · exact Or.inl hstore
  · obtain ⟨i, hi, hfault, hpush⟩ := store_of_accept haccept
    exact Or.inr ⟨φ, as, i, houtcome, hi, hfault, hstore.trans hpush⟩

theorem Reachable.enter (hs : s.Reachable) (check : BoundsCheck) (close : Word)
    (ws : List Word) : (s.enter check close ws).store.Reachable := by
  rcases s.store_of_enter check close ws with hsame | ⟨φ, as, i, -, -, hfault, hpush⟩
  · rwa [hsame]
  · rw [hpush]
    exact hs.push hfault

end Store

-- ============================================================================
-- Sessions
-- ============================================================================

namespace Session

/-- The loop over the declarations, by the recursion on the words that are left. -/
theorem reachable_readDeclarations (u : Session) {s : Store} (hs : s.Reachable) :
    (u.readDeclarations s).1.Reachable := by
  induction u, s using readDeclarations.induct with
  | case1 u s hskip => rwa [readDeclarations_of_nil s hskip]
  | case2 u s w ws hskip hw => rwa [readDeclarations_of_cons s hskip, if_pos hw]
  | case3 u s w ws hskip hw entry next hover =>
    rw [readDeclarations_of_over hskip hw rfl rfl hover]
    exact hs.enter _ _ _
  | case4 u s w ws hskip hw entry next hover ih =>
    rw [readDeclarations_of_not_over hskip hw rfl rfl hover]
    exact ih (hs.enter _ _ _)

/-- The network that a session has not given out yet has a reachable store. -/
def HasReachableStore (u : Session) : Prop := ∀ n, u.network = some n → n.store.Reachable

theorem HasReachableStore.build {u : Session} (h : u.HasReachableStore) :
    u.build.HasReachableStore := by
  have hkept := u.network_readHeader
  intro n hn
  unfold Session.build at hn
  rcases hheader : u.readHeader with ⟨network, t⟩
  rw [hheader] at hn hkept
  cases network with
  | none => exact h n (hkept.symm.trans hn)
  | some network =>
    obtain rfl := Option.some.inj hn
    exact reachable_readDeclarations t .empty

/-- **One reading.** The store of the network that it gives out is reachable, and so is that of one
that it keeps back. -/
theorem HasReachableStore.read {u : Session} (h : u.HasReachableStore) :
    u.read.2.HasReachableStore ∧ ∀ n, u.read.1 = some n → n.store.Reachable := by
  have hbuild := h.build
  unfold Session.read
  dsimp only
  split
  · exact ⟨hbuild, fun n hn => absurd hn (by simp)⟩
  · exact ⟨fun n hn => absurd hn (by simp [keep]), hbuild⟩

/-- Any number of readings. -/
theorem hasReachableStore_iterate (ts : List Token) (index : LineIndex) (options : Options)
    (report : Report) (calls : Nat) :
    ((fun t : Session => t.read.2)^[calls] (new ts index options report)).HasReachableStore := by
  induction calls with
  | zero => exact fun n hn => absurd hn (by simp [new])
  | succ calls ih =>
    rw [Function.iterate_succ_apply']
    exact ih.read.1

/-- The store of a network that was read from a text is reachable. -/
theorem reachable_of_parse {source : String} {options : Options} {n : System}
    (h : (parse source options).system = some n) : n.store.Reachable :=
  (hasReachableStore_iterate (Token.scan source) (.ofText source) options .empty 0).read.2 n h

/-- **Referential integrity.** After any sequence of insertions, in every network that a session
gives out or keeps back, and in every network that is read from a text, names are unique in their
namespaces and every reference leads to an earlier declaration, with the owner that it should
have. -/
theorem integral_stores :
    (∀ ds : List Declaration, (Store.empty.insertAll ds).Integral) ∧
    (∀ (ts : List Token) (index : LineIndex) (options : Options) (report : Report) (calls : Nat),
      let t := (fun t : Session => t.read.2)^[calls] (new ts index options report)
      ∀ n, t.network = some n ∨ t.read.1 = some n → n.store.Integral) ∧
    ∀ (source : String) (options : Options) (n : System),
      (parse source options).system = some n → n.store.Integral := by
  refine ⟨fun ds => ?_, fun ts index options report calls => ?_, fun source options n hn => ?_⟩
  · exact (Store.Reachable.empty.insertAll ds).integral
  · have hstores := hasReachableStore_iterate ts index options report calls
    intro t n hn
    rcases hn with hkept | hgiven
    · exact (hstores n hkept).integral
    · exact (hstores.read.2 n hgiven).integral
  · exact (reachable_of_parse hn).integral

/-- A network in which an edge and a synchronization refer to what stands above them. -/
def linkedSample : String :=
  "system:s\nevent:e\nprocess:P\nlocation:P:l\nedge:P:l:l:e\nsync:P@e\n"

theorem integral_stores_linkedSample :
    ∃ n, (parse linkedSample {}).system = some n ∧ n.store.size = 5 ∧ n.store.Integral := by
  have hreads : (parse linkedSample {}).system.map (fun n => n.store.size) = some 5 := by
    decide +kernel
  obtain ⟨n, hn, hsize⟩ := Option.map_eq_some_iff.mp hreads
  obtain ⟨-, -, hparse⟩ := integral_stores
  exact ⟨n, hn, hsize, hparse linkedSample {} n hn⟩

end Session

end TimedNet
