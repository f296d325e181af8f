import CogMachine.Single.Basic
import Mathlib.Data.Nat.Log
import Mathlib.Tactic.Linarith
import Mathlib.Tactic.Positivity
import Mathlib.Tactic.Ring

/-!
# Rounding keeps the order

Rounding to nearest never turns two numbers around, so an integer that is taken as a single keeps its place among
all others, up to equality.

- `roundDiv_mono`: of two quotients by one divisor the larger one is not rounded to less. With what rounds to
  itself (`roundDiv_mul`) it bounds every rounded quotient.
- `Single.roundMagnitude_mono`: nor is a larger number of units, also from one binade to the next.
- `Single.key_ofInt32_mono`: hence the keys of integers are in their order.
-/

namespace CogMachine

/-! ## Quotients -/

/-- **Rounding is monotone.** Otherwise the larger number would be below the middle of the two results and the
smaller one above it, so they would be one number. -/
theorem roundDiv_mono {n n' d : Nat} (hd : 0 < d) (h : n ≤ n') : roundDiv n d ≤ roundDiv n' d := by
  by_contra hlt
  obtain ⟨-, hlow⟩ := roundDiv_bounds n hd
  obtain ⟨hhigh, -⟩ := roundDiv_bounds n' hd
  have hstep : (roundDiv n' d + 1) * d ≤ roundDiv n d * d := Nat.mul_le_mul_right d (by omega)
  have heq : n = n' := by nlinarith
  subst heq
  exact hlt (Nat.le_refl _)

theorem le_roundDiv {n d q : Nat} (hd : 0 < d) (h : q * d ≤ n) : q ≤ roundDiv n d := by
  have hmono := roundDiv_mono hd h
  rwa [roundDiv_mul q hd] at hmono

theorem roundDiv_le {n d q : Nat} (hd : 0 < d) (h : n ≤ q * d) : roundDiv n d ≤ q := by
  have hmono := roundDiv_mono hd h
  rwa [roundDiv_mul q hd] at hmono

namespace Single

/-! ## Magnitudes -/

/-- How far the leading bits of a quotient are shifted. -/
theorem shift_le {n n' d : Nat} (h : n ≤ n') : (n / d).log2 - 23 ≤ (n' / d).log2 - 23 := by
  have hquotient : n / d ≤ n' / d := Nat.div_le_div_right h
  rcases Nat.eq_zero_or_pos (n / d) with hzero | hpos
  · simp [hzero]
  · have hlog : (n / d).log2 ≤ (n' / d).log2 := by
      rw [Nat.le_log2 (by omega)]
      exact Nat.le_trans (Nat.log2_self_le hpos.ne') hquotient
    omega

/-- The leading bits are at most 24, a carry included, -/
theorem roundDiv_shift_le (n : Nat) {d : Nat} (hd : 0 < d) :
    roundDiv n (d <<< ((n / d).log2 - 23)) ≤ 2 * binade := by
  have hbinade : 2 * binade = 2 ^ 24 := rfl
  generalize hk : (n / d).log2 - 23 = k
  have hlt : n / d < 2 ^ (k + 24) :=
    Nat.lt_of_lt_of_le Nat.lt_log2_self (Nat.pow_le_pow_right (by decide) (by omega))
  refine roundDiv_le (by rw [Nat.shiftLeft_eq]; positivity) ?_
  rw [hbinade, Nat.shiftLeft_eq]
  calc n ≤ 2 ^ (k + 24) * d := Nat.le_of_lt ((Nat.div_lt_iff_lt_mul hd).mp hlt)
    _ = 2 ^ 24 * (d * 2 ^ k) := by ring

/-- and not fewer, where there was something to shift. -/
theorem le_roundDiv_shift {n d : Nat} (hd : 0 < d) (hk : 0 < (n / d).log2 - 23) :
    binade ≤ roundDiv n (d <<< ((n / d).log2 - 23)) := by
  have hbinade : binade = 2 ^ 23 := rfl
  generalize hshift : (n / d).log2 - 23 = k at hk
  have hne : n / d ≠ 0 := by
    intro hzero
    simp [hzero] at hshift
    omega
  have hle : 2 ^ (k + 23) ≤ n / d := by
    have hlog : k + 23 = (n / d).log2 := by omega
    rw [hlog]
    exact Nat.log2_self_le hne
  refine le_roundDiv (by rw [Nat.shiftLeft_eq]; positivity) ?_
  rw [hbinade, Nat.shiftLeft_eq]
  calc 2 ^ 23 * (d * 2 ^ k) = 2 ^ (k + 23) * d := by ring
    _ ≤ n := (Nat.le_div_iff_mul_le hd).mp hle

/-- **Magnitudes are in order.** Inside a binade by rounding, and from one to another because a carry does not
leave the next one. -/
theorem roundMagnitude_mono {n n' d : Nat} (hd : 0 < d) (h : n ≤ n') :
    roundMagnitude n d ≤ roundMagnitude n' d := by
  have hlow := roundDiv_shift_le n hd
  have hhigh := le_roundDiv_shift (n := n') hd
  have hshift := shift_le (d := d) h
  simp only [roundMagnitude]
  generalize (n' / d).log2 - 23 = k' at *
  generalize (n / d).log2 - 23 = k at *
  refine min_le_min_right _ ?_
  rcases Nat.eq_or_lt_of_le hshift with rfl | hlt
  · have hround : roundDiv n (d <<< k) ≤ roundDiv n' (d <<< k) :=
      roundDiv_mono (by rw [Nat.shiftLeft_eq]; positivity) h
    omega
  · have hstep : (k + 1) * binade ≤ k' * binade := Nat.mul_le_mul_right _ hlt
    have hcarry := hhigh (by omega)
    rw [Nat.succ_mul] at hstep
    omega

theorem roundMagnitude_le (n d : Nat) : roundMagnitude n d ≤ infinityMagnitude := Nat.min_le_right _ _

/-! ## Keys -/

section OfMagnitude

variable (negative : Bool) {m : Nat}

/-- The bits of a single that is put together from its sign and its magnitude. -/
theorem toNat_bits_ofMagnitude (hm : m ≤ infinityMagnitude) :
    (ofMagnitude negative m).bits.toNat = if negative then m + signBit else m := by
  have hinfinity : infinityMagnitude = 0x7f800000 := rfl
  have hsign : signBit = 0x80000000 := rfl
  rw [ofMagnitude, UInt32.toNat_ofNat']
  apply Nat.mod_eq_of_lt
  split <;> omega

theorem magnitude_ofMagnitude (hm : m ≤ infinityMagnitude) : (ofMagnitude negative m).magnitude = m := by
  have hlimit : m < signBit := Nat.lt_of_le_of_lt hm (by decide)
  rw [magnitude, toNat_bits_ofMagnitude negative hm]
  split
  · rw [Nat.add_mod_right, Nat.mod_eq_of_lt hlimit]
  · exact Nat.mod_eq_of_lt hlimit

theorem negative_ofMagnitude (hm : m ≤ infinityMagnitude) : (ofMagnitude negative m).negative = negative := by
  have hlimit : m < signBit := Nat.lt_of_le_of_lt hm (by decide)
  rw [Single.negative, toNat_bits_ofMagnitude negative hm]
  cases negative with
  | true => exact decide_eq_true (Nat.le_add_left signBit m)
  | false => exact decide_eq_false (Nat.not_le_of_lt hlimit)

theorem isNaN_ofMagnitude (hm : m ≤ infinityMagnitude) : (ofMagnitude negative m).isNaN = false := by
  simpa [isNaN, magnitude_ofMagnitude negative hm] using hm

theorem key_ofMagnitude (hm : m ≤ infinityMagnitude) :
    (ofMagnitude negative m).key = if negative then -(m : Int) else m := by
  rw [key, negative_ofMagnitude negative hm, magnitude_ofMagnitude negative hm]

end OfMagnitude

theorem isNaN_ofInt32 (n : Int32) : (ofInt32 n).isNaN = false := isNaN_ofMagnitude _ (roundMagnitude_le _ _)

/-- **Integers keep their order** as singles, but may become equal. -/
theorem key_ofInt32_mono {n n' : Int32} (h : n.toInt ≤ n'.toInt) : (ofInt32 n).key ≤ (ofInt32 n').key := by
  have hkey : ∀ n : Int32, (ofInt32 n).key =
      if n.toInt < 0 then -(roundMagnitude (n.toInt.natAbs * unitsPerOne) 1 : Int)
        else roundMagnitude (n.toInt.natAbs * unitsPerOne) 1 := by
    intro n
    rw [ofInt32, ofUnits, key_ofMagnitude _ (roundMagnitude_le _ _)]
    simp only [decide_eq_true_eq, Int32.lt_iff_toInt_lt]
    rfl
  have hmono : ∀ {x y : Int}, x.natAbs ≤ y.natAbs →
      roundMagnitude (x.natAbs * unitsPerOne) 1 ≤ roundMagnitude (y.natAbs * unitsPerOne) 1 :=
    fun hxy => roundMagnitude_mono Nat.one_pos (Nat.mul_le_mul_right _ hxy)
  rw [hkey, hkey]
  split
  · split
    · -- Both are negative, and the smaller one has the larger magnitude.
      have := hmono (x := n'.toInt) (y := n.toInt) (by omega)
      omega
    · omega
  · rw [if_neg (by omega)]
    have := hmono (x := n.toInt) (y := n'.toInt) (by omega)
    omega

end Single
end CogMachine
