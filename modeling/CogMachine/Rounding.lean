/-!
# Rounding a quotient

One function: the integer nearest to a quotient of naturals, a half going to the even
neighbour. Every inexact operation of the library (single precision arithmetic, the reading
of decimals, the digits of a float) rounds exactly once, and rounds here.
-/

namespace CogMachine

/-- **Nearest integer.** The integer nearest to `n / d`; a half goes to the even neighbour. -/
def roundDiv (n d : Nat) : Nat :=
  let q := n / d
  let r := n % d
  if 2 * r < d then q
  else if d < 2 * r then q + 1
  else q + q % 2

theorem roundDiv_mul {d : Nat} (q : Nat) (h : 0 < d) : roundDiv (q * d) d = q := by
  simp [roundDiv, Nat.mul_div_cancel q h, h]

/-- **Within half a unit.** The rounded quotient is off by at most half of the divisor. -/
theorem roundDiv_bounds (n : Nat) {d : Nat} (h : 0 < d) :
    2 * n ≤ (2 * roundDiv n d + 1) * d ∧ 2 * roundDiv n d * d ≤ 2 * n + d := by
  have e := Nat.div_add_mod n d
  have hr := Nat.mod_lt n h
  simp only [roundDiv]
  generalize n / d = q at *
  generalize n % d = r at *
  subst e
  have e2 : ∀ a : Nat, (2 * a + 1) * d = 2 * (d * a) + d := fun a => by
    rw [Nat.add_mul, Nat.mul_assoc, Nat.mul_comm a d, Nat.one_mul]
  have e3 : ∀ a : Nat, 2 * a * d = 2 * (d * a) := fun a => by
    rw [Nat.mul_assoc, Nat.mul_comm a d]
  have e4 : d * (q + 1) = d * q + d := Nat.mul_succ d q
  rw [e2, e3]
  split
  · constructor <;> omega
  · split
    · rw [e4]; constructor <;> omega
    · rcases Nat.mod_two_eq_zero_or_one q with hq | hq
      · rw [hq, Nat.add_zero]; constructor <;> omega
      · rw [hq, e4]; constructor <;> omega

end CogMachine
