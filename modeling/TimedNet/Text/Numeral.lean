/-
  TimedNet.Text.Numeral

  Decimal numerals for 32-bit numbers. A numeral is a sign and at least one ASCII digit, with any
  number of leading zeros; its value has to fit the range of the numbers that are read.
-/

namespace TimedNet

/-- A text that is no numeral for a number between `min` and `max`. -/
structure OutOfRange where
  literal : String
  min : Int
  max : Int
deriving DecidableEq

namespace OutOfRange

def message (e : OutOfRange) : String :=
  "value " ++ e.literal ++ " out of range " ++ toString e.min ++ "," ++ toString e.max

end OutOfRange

namespace Numeral

/-- The number that a nonempty run of ASCII digits stands for. -/
def natural? (cs : List Char) : Option Nat :=
  if cs ≠ [] ∧ cs.all Char.isDigit then some (Nat.ofDigitChars 10 cs 0) else none

/-! ## Signed numbers -/

/-- The least and the greatest signed number. -/
def signedMin : Int := -2147483648

def signedMax : Int := 2147483647

/-- The integer that digits behind an optional `+` or `-` stand for. -/
def integer? : List Char → Option Int
  | '+' :: cs => (natural? cs).map Int.ofNat
  | '-' :: cs => (natural? cs).map fun n => -Int.ofNat n
  | cs => (natural? cs).map Int.ofNat

/-- Reads a signed 32-bit number. -/
def signed (literal : String) : Except OutOfRange Int32 :=
  match integer? literal.toList with
  | some v =>
    if signedMin ≤ v ∧ v ≤ signedMax then .ok (Int32.ofInt v)
    else .error ⟨literal, signedMin, signedMax⟩
  | none => .error ⟨literal, signedMin, signedMax⟩

/-! ## Unsigned numbers -/

/-- The greatest unsigned number. -/
def unsignedMax : Nat := 4294967295

/-- The natural number that digits behind an optional `+` stand for; behind a `-` there may be
zeros only. -/
def magnitude? : List Char → Option Nat
  | '+' :: cs => natural? cs
  | '-' :: cs => if cs ≠ [] ∧ cs.all (· == '0') then some 0 else none
  | cs => natural? cs

/-- Reads an unsigned 32-bit number. -/
def unsigned (literal : String) : Except OutOfRange UInt32 :=
  match magnitude? literal.toList with
  | some n =>
    if n ≤ unsignedMax then .ok (UInt32.ofNat n) else .error ⟨literal, 0, unsignedMax⟩
  | none => .error ⟨literal, 0, unsignedMax⟩

end Numeral

end TimedNet
