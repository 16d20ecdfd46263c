/-
  TimedNet.Proofs.Text.Decimal

  Printed numbers are numerals for themselves, and where no digit follows, one can tell where they
  end.
-/
import TimedNet.Text.Numeral

namespace TimedNet

/-- A run is taken whole if it is not gone on with. -/
theorem takeWhile_append_of_head {p : Char → Bool} {run rest : List Char}
    (hrun : ∀ c ∈ run, p c = true) (hrest : ∀ c ∈ rest.head?, p c = false) :
    (run ++ rest).takeWhile p = run ∧ (run ++ rest).dropWhile p = rest := by
  have hnone : rest.takeWhile p = [] ∧ rest.dropWhile p = rest := by
    cases rest with
    | nil => exact ⟨rfl, rfl⟩
    | cons c rest => simp [hrest c rfl]
  rw [List.takeWhile_append_of_pos hrun, List.dropWhile_append_of_pos hrun, hnone.1, hnone.2,
    List.append_nil]
  exact ⟨rfl, rfl⟩

namespace Numeral

-- ============================================================================
-- Natural numbers
-- ============================================================================

theorem toList_toString (n : Nat) : (toString n).toList = Nat.toDigits 10 n := by
  rw [Nat.toString_eq_ofList_toDigits, String.toList_ofList]

theorem isDigit_of_mem_toDigits {n : Nat} {c : Char} (h : c ∈ Nat.toDigits 10 n) :
    c.isDigit = true := Nat.isDigit_of_mem_toDigits (by decide) (by decide) h

/-- The digits of a number are not empty and have no sign in front. -/
theorem exists_toDigits_eq_cons (n : Nat) :
    ∃ c cs, Nat.toDigits 10 n = c :: cs ∧ c.isDigit = true ∧ ∀ d ∈ cs, d.isDigit = true := by
  cases h : Nat.toDigits 10 n with
  | nil => exact absurd h Nat.toDigits_ne_nil
  | cons c cs =>
    have hdigit : ∀ d ∈ c :: cs, d.isDigit = true := fun d hd =>
      isDigit_of_mem_toDigits (n := n) (h ▸ hd)
    exact ⟨c, cs, rfl, hdigit c List.mem_cons_self, fun d hd => hdigit d (List.mem_cons_of_mem c hd)⟩

theorem natural?_toDigits (n : Nat) : natural? (Nat.toDigits 10 n) = some n := by
  have hall : (Nat.toDigits 10 n).all Char.isDigit = true :=
    List.all_eq_true.mpr fun c hc => isDigit_of_mem_toDigits hc
  rw [natural?, if_pos ⟨Nat.toDigits_ne_nil, hall⟩, Nat.ofDigitChars_ten_toDigits]

theorem toDigits_inj {m n : Nat} (h : Nat.toDigits 10 m = Nat.toDigits 10 n) : m = n := by
  have hread := congrArg natural? h
  rw [natural?_toDigits, natural?_toDigits] at hread
  exact Option.some.inj hread

/-- A number ends where no digit follows. -/
theorem toDigits_append_inj {m n : Nat} {as bs : List Char}
    (has : ∀ c ∈ as.head?, c.isDigit = false) (hbs : ∀ c ∈ bs.head?, c.isDigit = false)
    (h : Nat.toDigits 10 m ++ as = Nat.toDigits 10 n ++ bs) : m = n ∧ as = bs := by
  obtain ⟨hdigits, hrest⟩ :=
    takeWhile_append_of_head (fun c hc => isDigit_of_mem_toDigits (n := m) hc) has
  obtain ⟨hdigits', hrest'⟩ :=
    takeWhile_append_of_head (fun c hc => isDigit_of_mem_toDigits (n := n) hc) hbs
  rw [h] at hdigits hrest
  exact ⟨toDigits_inj (hdigits.symm.trans hdigits'), hrest.symm.trans hrest'⟩

theorem unsigned_toString (n : UInt32) : unsigned (toString n.toNat) = .ok n := by
  obtain ⟨c, cs, hdigits, hc, -⟩ := exists_toDigits_eq_cons n.toNat
  have hmagnitude : magnitude? (toString n.toNat).toList = some n.toNat := by
    rw [toList_toString, ← natural?_toDigits n.toNat, hdigits]
    unfold magnitude?
    split
    · next h => exact absurd hc (by rw [(List.cons.inj h).1]; decide)
    · next h => exact absurd hc (by rw [(List.cons.inj h).1]; decide)
    · rfl
  have hle : n.toNat ≤ unsignedMax := Nat.le_of_lt_succ n.toNat_lt
  rw [unsigned, hmagnitude]
  simp [hle]

-- ============================================================================
-- Integers
-- ============================================================================

theorem toList_toString_nonneg (n : Nat) :
    (toString (Int.ofNat n)).toList = Nat.toDigits 10 n := toList_toString n

theorem toList_toString_neg (n : Nat) :
    (toString (Int.negSucc n)).toList = '-' :: Nat.toDigits 10 (n + 1) := by
  have hneg : toString (Int.negSucc n) = "-" ++ toString (n + 1) := rfl
  rw [hneg, String.toList_append, toList_toString]
  rfl

theorem integer?_toString (i : Int) : integer? (toString i).toList = some i := by
  cases i with
  | ofNat n =>
    obtain ⟨c, cs, hdigits, hc, -⟩ := exists_toDigits_eq_cons n
    have hnatural := natural?_toDigits n
    rw [toList_toString_nonneg, hdigits]
    rw [hdigits] at hnatural
    unfold integer?
    split
    · next h => exact absurd hc (by rw [(List.cons.inj h).1]; decide)
    · next h => exact absurd hc (by rw [(List.cons.inj h).1]; decide)
    · rw [hnatural]
      rfl
  | negSucc n =>
    rw [toList_toString_neg, integer?, natural?_toDigits]
    rfl

theorem signed_toString (n : Int32) : signed (toString n.toInt) = .ok n := by
  have hmin : signedMin ≤ n.toInt := n.le_toInt
  have hmax : n.toInt ≤ signedMax := Int.le_of_lt_add_one n.toInt_lt
  rw [signed, integer?_toString]
  simp [hmin, hmax]

end Numeral

end TimedNet
