/-
  TimedNet.Proofs.Text.Numerals

  Which texts are read as 32-bit numbers, and as which. Digits stand for the sum of their values, each
  times the power of ten of its place (`IsDecimal`). A signed number is such digits with at most one
  sign in front, an unsigned one may have a `+`, and a `-` in front of zeros only. What a numeral
  stands for is read exactly if it fits, however many zeros it begins with; every other text is out
  of range (`reads_exactly`).
-/
import Mathlib.Data.Nat.Digits.Defs
import TimedNet.Proofs.Text.Decimal

namespace TimedNet.Numeral

-- ============================================================================
-- Digits
-- ============================================================================

/-- The value of an ASCII digit. -/
def digitValue (c : Char) : Nat := c.toNat - '0'.toNat

/-- The natural number that ASCII digits, at least one, stand for in base ten. -/
structure IsDecimal (digits : List Char) (n : Nat) : Prop where
  ne_nil : digits ≠ []
  isDigit : ∀ c ∈ digits, '0' ≤ c ∧ c ≤ '9'
  value : n = Nat.ofDigits 10 (digits.map digitValue).reverse

/-- Reading digits from the left, as many powers of ten as digits follow are added up. -/
theorem ofDigitChars_eq_ofDigits (cs : List Char) (init : Nat) :
    Nat.ofDigitChars 10 cs init =
      10 ^ cs.length * init + Nat.ofDigits 10 (cs.map digitValue).reverse := by
  induction cs generalizing init with
  | nil => simp
  | cons c cs ih =>
    rw [Nat.ofDigitChars_cons, ih, List.map_cons, Nat.ofDigits_reverse_cons, List.length_map,
      List.length_cons, pow_succ]
    show 10 ^ cs.length * (10 * init + digitValue c) + _ = _
    ring

theorem natural?_eq_some_iff {cs : List Char} {n : Nat} :
    natural? cs = some n ↔ IsDecimal cs n := by
  have hdigits : cs.all Char.isDigit = true ↔ ∀ c ∈ cs, '0' ≤ c ∧ c ≤ '9' := by
    simp only [List.all_eq_true, Char.isDigit_iff_toNat]
    rfl
  have hvalue : Nat.ofDigitChars 10 cs 0 = Nat.ofDigits 10 (cs.map digitValue).reverse := by
    rw [ofDigitChars_eq_ofDigits, Nat.mul_zero, Nat.zero_add]
  rw [natural?, Option.ite_none_right_eq_some, hdigits, hvalue, Option.some_inj]
  constructor
  · rintro ⟨⟨hne, hall⟩, rfl⟩
    exact ⟨hne, hall, rfl⟩
  · rintro ⟨hne, hall, rfl⟩
    exact ⟨⟨hne, hall⟩, rfl⟩

/-- Digits do not begin with a sign. -/
theorem IsDecimal.ne_sign {c : Char} {cs : List Char} {n : Nat} (h : IsDecimal (c :: cs) n) :
    c ≠ '+' ∧ c ≠ '-' := by
  have hdigit := h.isDigit c List.mem_cons_self
  constructor <;> rintro rfl <;> exact absurd hdigit (by decide)

-- ============================================================================
-- Signs
-- ============================================================================

/-- The integer that digits stand for, with or without a sign in front. -/
inductive Denotes : List Char → Int → Prop where
  | bare {digits : List Char} {n : Nat} (h : IsDecimal digits n) : Denotes digits n
  | plus {digits : List Char} {n : Nat} (h : IsDecimal digits n) : Denotes ('+' :: digits) n
  | minus {digits : List Char} {n : Nat} (h : IsDecimal digits n) : Denotes ('-' :: digits) (-n)

/-- The natural number that digits stand for, with or without a `+` in front. Of the negative
numerals only those of zero stand for one, which are a `-` and zeros. -/
inductive DenotesNatural : List Char → Nat → Prop where
  | bare {digits : List Char} {n : Nat} (h : IsDecimal digits n) : DenotesNatural digits n
  | plus {digits : List Char} {n : Nat} (h : IsDecimal digits n) :
    DenotesNatural ('+' :: digits) n
  | minusZero (k : Nat) : DenotesNatural ('-' :: List.replicate (k + 1) '0') 0

theorem integer?_eq_some_iff {cs : List Char} {i : Int} :
    integer? cs = some i ↔ Denotes cs i := by
  unfold integer?
  split
  · next cs =>
    rw [Option.map_eq_some_iff]
    constructor
    · rintro ⟨n, hn, rfl⟩
      exact .plus (natural?_eq_some_iff.mp hn)
    · rintro (h | h | h)
      · exact absurd rfl h.ne_sign.1
      · exact ⟨_, natural?_eq_some_iff.mpr h, rfl⟩
  · next cs =>
    rw [Option.map_eq_some_iff]
    constructor
    · rintro ⟨n, hn, rfl⟩
      exact .minus (natural?_eq_some_iff.mp hn)
    · rintro (h | h | h)
      · exact absurd rfl h.ne_sign.2
      · exact ⟨_, natural?_eq_some_iff.mpr h, rfl⟩
  · next hplus hminus =>
    rw [Option.map_eq_some_iff]
    constructor
    · rintro ⟨n, hn, rfl⟩
      exact .bare (natural?_eq_some_iff.mp hn)
    · rintro (h | h | h)
      · exact ⟨_, natural?_eq_some_iff.mpr h, rfl⟩
      · exact absurd rfl (hplus _)
      · exact absurd rfl (hminus _)

theorem magnitude?_eq_some_iff {cs : List Char} {n : Nat} :
    magnitude? cs = some n ↔ DenotesNatural cs n := by
  unfold magnitude?
  split
  · next cs =>
    rw [natural?_eq_some_iff]
    constructor
    · exact .plus
    · rintro (h | h | k)
      · exact absurd rfl h.ne_sign.1
      · exact h
  · next cs =>
    have hzeros : (cs ≠ [] ∧ cs.all (· == '0') = true) ↔
        ∃ k, cs = List.replicate (k + 1) '0' := by
      simp only [List.all_eq_true, beq_iff_eq]
      constructor
      · rintro ⟨hne, hall⟩
        refine ⟨cs.length - 1, List.eq_replicate_iff.mpr ⟨?_, hall⟩⟩
        have hpos := List.length_pos_iff.mpr hne
        omega
      · rintro ⟨k, rfl⟩
        exact ⟨by simp, fun c hc => List.eq_of_mem_replicate hc⟩
    rw [Option.ite_none_right_eq_some, hzeros, Option.some_inj]
    constructor
    · rintro ⟨⟨k, rfl⟩, rfl⟩
      exact .minusZero k
    · rintro (h | h | k)
      · exact absurd rfl h.ne_sign.2
      · exact ⟨⟨k, rfl⟩, rfl⟩
  · next hplus hminus =>
    rw [natural?_eq_some_iff]
    constructor
    · exact .bare
    · rintro (h | h | k)
      · exact h
      · exact absurd rfl (hplus _)
      · exact absurd rfl (hminus _)

-- ============================================================================
-- 32-bit numbers
-- ============================================================================

/-- A numeral is read as the integer that it stands for, if that is a signed number. -/
theorem signed_eq_ok_iff {s : String} {i : Int} :
    (∃ v, signed s = .ok v ∧ v.toInt = i) ↔
      Denotes s.toList i ∧ -2 ^ 31 ≤ i ∧ i ≤ 2 ^ 31 - 1 := by
  rw [← integer?_eq_some_iff]
  cases hread : integer? s.toList with
  | none => simp [signed, hread]
  | some j =>
    simp only [signed, hread]
    constructor
    · rintro ⟨v, hv, rfl⟩
      split at hv
      · next hrange =>
        obtain rfl := Except.ok.inj hv
        obtain ⟨hmin, hmax⟩ : -2147483648 ≤ j ∧ j ≤ 2147483647 := hrange
        rw [Int32.toInt_ofInt_of_le (by omega) (by omega)]
        exact ⟨rfl, by omega, by omega⟩
      · exact absurd hv (by simp)
    · rintro ⟨hj, hmin, hmax⟩
      obtain rfl := Option.some.inj hj
      have hrange : signedMin ≤ j ∧ j ≤ signedMax := ⟨hmin, hmax⟩
      exact ⟨Int32.ofInt j, if_pos hrange, Int32.toInt_ofInt_of_le hmin (by omega)⟩

/-- A numeral is read as the number that it stands for, if that is an unsigned number. -/
theorem unsigned_eq_ok_iff {s : String} {n : Nat} :
    (∃ v, unsigned s = .ok v ∧ v.toNat = n) ↔
      DenotesNatural s.toList n ∧ n ≤ 2 ^ 32 - 1 := by
  rw [← magnitude?_eq_some_iff]
  cases hread : magnitude? s.toList with
  | none => simp [unsigned, hread]
  | some m =>
    simp only [unsigned, hread]
    constructor
    · rintro ⟨v, hv, rfl⟩
      split at hv
      · next hrange =>
        obtain rfl := Except.ok.inj hv
        have hmax : m ≤ 4294967295 := hrange
        rw [UInt32.toNat_ofNat', Nat.mod_eq_of_lt (by omega)]
        exact ⟨rfl, by omega⟩
      · exact absurd hv (by simp)
    · rintro ⟨hm, hmax⟩
      obtain rfl := Option.some.inj hm
      have hrange : m ≤ unsignedMax := hmax
      refine ⟨UInt32.ofNat m, if_pos hrange, ?_⟩
      rw [UInt32.toNat_ofNat', Nat.mod_eq_of_lt (by omega)]

/-- A text that is read as no number is told of with the range of the numbers. -/
theorem signed_cases (s : String) :
    (∃ v, signed s = .ok v) ∨ signed s = .error ⟨s, -2 ^ 31, 2 ^ 31 - 1⟩ := by
  unfold signed
  split
  · split
    · exact Or.inl ⟨_, rfl⟩
    · exact Or.inr rfl
  · exact Or.inr rfl

theorem unsigned_cases (s : String) :
    (∃ v, unsigned s = .ok v) ∨ unsigned s = .error ⟨s, 0, 2 ^ 32 - 1⟩ := by
  unfold unsigned
  split
  · split
    · exact Or.inl ⟨_, rfl⟩
    · exact Or.inr rfl
  · exact Or.inr rfl

theorem signed_eq_error_iff {s : String} {e : OutOfRange} :
    signed s = .error e ↔ e = ⟨s, -2 ^ 31, 2 ^ 31 - 1⟩ ∧
      ¬ ∃ i, Denotes s.toList i ∧ -2 ^ 31 ≤ i ∧ i ≤ 2 ^ 31 - 1 := by
  rcases signed_cases s with ⟨v, hv⟩ | herror
  · have hread := signed_eq_ok_iff.mp ⟨v, hv, rfl⟩
    exact iff_of_false (by simp [hv]) fun h => h.2 ⟨v.toInt, hread⟩
  · rw [herror, Except.error.injEq, eq_comm, iff_self_and]
    rintro - ⟨i, hi⟩
    obtain ⟨v, hv, -⟩ := signed_eq_ok_iff.mpr hi
    exact absurd (hv.symm.trans herror) (by simp)

theorem unsigned_eq_error_iff {s : String} {e : OutOfRange} :
    unsigned s = .error e ↔ e = ⟨s, 0, 2 ^ 32 - 1⟩ ∧
      ¬ ∃ n, DenotesNatural s.toList n ∧ n ≤ 2 ^ 32 - 1 := by
  rcases unsigned_cases s with ⟨v, hv⟩ | herror
  · have hread := unsigned_eq_ok_iff.mp ⟨v, hv, rfl⟩
    exact iff_of_false (by simp [hv]) fun h => h.2 ⟨v.toNat, hread⟩
  · rw [herror, Except.error.injEq, eq_comm, iff_self_and]
    rintro - ⟨n, hn⟩
    obtain ⟨v, hv, -⟩ := unsigned_eq_ok_iff.mpr hn
    exact absurd (hv.symm.trans herror) (by simp)

/-- **Numerals are read exactly.** A text is read as a signed number exactly if it is made up of
digits, with at most one sign in front, that stand for a number in range, and then as that number;
as an unsigned number, if a `+` may be in front, or it is a `-` and zeros. Any other text is out of
range. Every number is read off its own printed form. -/
theorem reads_exactly (s : String) :
    (∀ i : Int, (∃ v, signed s = .ok v ∧ v.toInt = i) ↔
      Denotes s.toList i ∧ -2 ^ 31 ≤ i ∧ i ≤ 2 ^ 31 - 1) ∧
    (∀ n : Nat, (∃ v, unsigned s = .ok v ∧ v.toNat = n) ↔
      DenotesNatural s.toList n ∧ n ≤ 2 ^ 32 - 1) ∧
    (∀ e, signed s = .error e ↔ e = ⟨s, -2 ^ 31, 2 ^ 31 - 1⟩ ∧
      ¬ ∃ i, Denotes s.toList i ∧ -2 ^ 31 ≤ i ∧ i ≤ 2 ^ 31 - 1) ∧
    (∀ e, unsigned s = .error e ↔ e = ⟨s, 0, 2 ^ 32 - 1⟩ ∧
      ¬ ∃ n, DenotesNatural s.toList n ∧ n ≤ 2 ^ 32 - 1) ∧
    (∀ v : Int32, signed (toString v.toInt) = .ok v) ∧
    ∀ v : UInt32, unsigned (toString v.toNat) = .ok v :=
  ⟨fun _ => signed_eq_ok_iff, fun _ => unsigned_eq_ok_iff, fun _ => signed_eq_error_iff,
    fun _ => unsigned_eq_error_iff, signed_toString, unsigned_toString⟩

/-- Zeros in front do not count, and the least signed number has no positive counterpart. -/
example :
    signed "-0002147483648" = .ok (-2147483648) ∧
      signed "2147483648" = .error ⟨"2147483648", -2147483648, 2147483647⟩ ∧
      unsigned "+004" = .ok 4 ∧ unsigned "-00" = .ok 0 ∧
      unsigned "-1" = .error ⟨"-1", 0, 4294967295⟩ := by
  decide

end TimedNet.Numeral
