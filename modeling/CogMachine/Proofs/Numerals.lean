import CogMachine.Text.Numeral
import CogMachine.Text.Blank

/-!
# Numerals read back

Digits written by `digitsOfNat` and `digitsOfInt` are read back to the number by every reader of whole
numbers, as long as it is in the reader's range.

- `natOfDigits_digitsOfNat`: the digits have the value; zeros behind them multiply it by powers of ten.
- `unsigned?_digitsOfNat`, `int32?_digitsOfInt`: what the readers of operands make of them.
-/

namespace CogMachine.Text

variable {n : Nat} {c : Char} {cs : List Char}

/-! ## Digit strings -/

theorem natOfDigits_eq (cs : List Char) : natOfDigits cs = Nat.ofDigitChars 10 cs 0 := rfl

/-- **Digits have their value.** -/
@[simp] theorem natOfDigits_digitsOfNat (n : Nat) : natOfDigits (digitsOfNat n) = n :=
  Nat.ofDigitChars_ten_toDigits

theorem natOfDigits_append_zeros (cs : List Char) (k : Nat) :
    natOfDigits (cs ++ List.replicate k '0') = Nat.pow 10 k * natOfDigits cs := by
  rw [natOfDigits_eq, natOfDigits_eq, Nat.ofDigitChars_append, Nat.ofDigitChars_replicate_zero]
  rfl

/-- Zeros in front of digits do not count. -/
theorem natOfDigits_zeros_append (k : Nat) (cs : List Char) :
    natOfDigits (List.replicate k '0' ++ cs) = natOfDigits cs := by
  rw [natOfDigits_eq, natOfDigits_eq, Nat.ofDigitChars_append, Nat.ofDigitChars_replicate_zero,
    Nat.mul_zero]

theorem isDigit_of_mem_digitsOfNat (h : c ∈ digitsOfNat n) : c.isDigit = true :=
  Nat.isDigit_of_mem_toDigits (by decide) (by decide) h

theorem digitsOfNat_ne_nil (n : Nat) : digitsOfNat n ≠ [] := Nat.toDigits_ne_nil

/-- There is a first digit. -/
theorem exists_digitsOfNat (n : Nat) :
    ∃ c cs, digitsOfNat n = c :: cs ∧ c.isDigit = true ∧ ∀ d ∈ cs, d.isDigit = true := by
  cases h : digitsOfNat n with
  | nil => exact absurd h (digitsOfNat_ne_nil n)
  | cons c cs =>
      have hdigits : ∀ d ∈ c :: cs, d.isDigit = true := by
        rw [← h]
        exact fun d => isDigit_of_mem_digitsOfNat
      rw [List.forall_mem_cons] at hdigits
      exact ⟨c, cs, rfl, hdigits⟩

/-! ## Readers -/

theorem nat?_of_digits (hne : cs ≠ []) (hcs : ∀ c ∈ cs, c.isDigit = true) :
    nat? cs = some (natOfDigits cs) := by
  have hall : cs.all Char.isDigit = true := List.all_eq_true.2 hcs
  have hempty : cs.isEmpty = false := by simpa using hne
  rw [nat?, hall, hempty]
  rfl

@[simp] theorem nat?_digitsOfNat (n : Nat) : nat? (digitsOfNat n) = some n := by
  rw [nat?_of_digits (digitsOfNat_ne_nil n) fun c => isDigit_of_mem_digitsOfNat,
    natOfDigits_digitsOfNat]

/-- A digit is no sign. -/
theorem splitSign_of_isDigit (hc : c.isDigit = true) : splitSign (c :: cs) = (false, c :: cs) := by
  unfold splitSign
  split
  · rename_i h
    cases h
    cases hc
  · rename_i h
    cases h
    cases hc
  · rfl

theorem unsigned?_digitsOfNat (h : n < unsignedLimit) : unsigned? (digitsOfNat n) = some n := by
  obtain ⟨c, cs, heq, hc, -⟩ := exists_digitsOfNat n
  have hunsigned : unsigned? (digitsOfNat n) = (nat? (digitsOfNat n)).filter (· < unsignedLimit) := by
    unfold unsigned?
    split
    · rename_i rest hplus
      rw [hplus, List.cons.injEq] at heq
      rw [← heq.1] at hc
      cases hc
    · rfl
  rw [hunsigned, nat?_digitsOfNat]
  simp [Option.filter, h]

/-- A number is its absolute value with its sign. -/
theorem signed_natAbs (n : Int) :
    (if decide (n < 0) then -(n.natAbs : Int) else (n.natAbs : Int)) = n := by
  by_cases h : n < 0
  · rw [if_pos (decide_eq_true h)]
    omega
  · rw [if_neg (by simpa using h)]
    omega

theorem splitSign_digitsOfInt (n : Int) :
    splitSign (digitsOfInt n) = (decide (n < 0), digitsOfNat n.natAbs) := by
  unfold digitsOfInt
  split
  · rename_i hneg
    simp [splitSign, hneg]
  · rename_i hneg
    obtain ⟨c, cs, heq, hc, -⟩ := exists_digitsOfNat n.natAbs
    rw [heq, splitSign_of_isDigit hc]
    simp [hneg]

/-- **Integers read back.** -/
@[simp] theorem int32?_digitsOfInt (n : Int32) : int32? (digitsOfInt n.toInt) = some n := by
  have hlow := n.le_toInt
  have hhigh := n.toInt_lt
  rw [int32?, splitSign_digitsOfInt]
  simp only [nat?_digitsOfNat, Option.bind_some, signed_natAbs]
  rw [if_pos (by simp; omega), Int32.ofInt_toInt]

end CogMachine.Text
