import CogMachine.Decimal.Layout
import CogMachine.Proofs.Numerals
import Mathlib

/-!
# Decimals read back

A single that is written in either layout is read as the same single. Its digits are searched for until
some read back (`Single.toMagnitude_shortest`), and the search succeeds at the latest on the grid of
multiples of `10^-149`, where every single lies. A layout changes nothing about the decimal but zeros
behind it, which do not change the single that is nearest (`Decimal.toMagnitude_zeros`).

- `Single.roundMagnitude_units`: a number of units that is a single rounds to it.
- `Layout.ofText?_decimal`: what is read where a decimal was written.
- `Single.ofText?_single`: the reading of a single, infinities included.
-/

namespace CogMachine

/-! ## Rounding what needs none -/

/-- A quotient may be expanded. -/
theorem roundDiv_mul_right (n d : Nat) {c : Nat} (hc : 0 < c) :
    roundDiv (n * c) (d * c) = roundDiv n d := by
  unfold roundDiv
  simp only [Nat.mul_div_mul_right n d hc, Nat.mul_mod_mul_right, ← Nat.mul_assoc,
    Nat.mul_lt_mul_right hc]

namespace Single

theorem roundMagnitude_mul_right (n d : Nat) {c : Nat} (hc : 0 < c) :
    roundMagnitude (n * c) (d * c) = roundMagnitude n d := by
  have hshift : ∀ k, (d * c) <<< k = d <<< k * c := by
    intro k
    rw [Nat.shiftLeft_eq, Nat.shiftLeft_eq, Nat.mul_right_comm]
  simp only [roundMagnitude, Nat.mul_div_mul_right n d hc, hshift, roundDiv_mul_right n _ hc]

/-- The leading bits of a magnitude, and how far the units of a finite single are shifted. -/
theorem units_cases (m : Nat) :
    (m < binade ∧ unitsOfMagnitude m = m) ∨
      ∃ k x, m = k * binade + x ∧ binade ≤ x ∧ x < 2 * binade ∧ unitsOfMagnitude m = x * 2 ^ k := by
  have hdiv := Nat.div_add_mod m binade
  have hmod : m % binade < binade := Nat.mod_lt m (by decide)
  rcases h : m / binade with _ | k
  · refine .inl ⟨?_, ?_⟩
    · rw [h, Nat.mul_zero] at hdiv
      omega
    · simp [unitsOfMagnitude, h]
  · rw [h] at hdiv
    have hm : m = k * binade + (binade + m % binade) := by
      rw [Nat.mul_succ, Nat.mul_comm] at hdiv
      omega
    refine .inr ⟨k, binade + m % binade, hm, by omega, by omega, ?_⟩
    simp only [unitsOfMagnitude, h, Nat.add_sub_cancel, Nat.shiftLeft_eq]
    congr 1
    omega

/-- **A single rounds to itself.** The quotient has the units of a finite single as its value. -/
theorem roundMagnitude_units {m d : Nat} (hd : 0 < d) (hm : m ≤ infinityMagnitude) :
    roundMagnitude (unitsOfMagnitude m * d) d = m := by
  have hbinade : binade = 2 ^ 23 := rfl
  unfold roundMagnitude
  rw [Nat.mul_div_cancel _ hd]
  rcases units_cases m with ⟨hlt, hunits⟩ | ⟨k, x, rfl, hlow, hhigh, hunits⟩
  · have hlog : m.log2 - 23 = 0 := by
      rcases Nat.eq_zero_or_pos m with rfl | hpos
      · rfl
      · have := (Nat.log2_lt hpos.ne').2 (hbinade ▸ hlt)
        omega
    simp only [hunits, hlog, Nat.zero_mul, Nat.zero_add, Nat.shiftLeft_zero, roundDiv_mul m hd]
    exact Nat.min_eq_left hm
  · have hne : x * 2 ^ k ≠ 0 := Nat.mul_ne_zero (by omega) (by positivity)
    have hlog : (x * 2 ^ k).log2 = 23 + k := by
      rw [Nat.log2_eq_iff hne, Nat.pow_add, Nat.pow_add, Nat.pow_add]
      constructor
      · exact Nat.mul_le_mul_right _ (hbinade ▸ hlow)
      · rw [Nat.mul_right_comm]
        exact Nat.mul_lt_mul_of_pos_right (by omega) (by positivity)
    have hexact : roundDiv (x * 2 ^ k * d) (d <<< k) = x := by
      rw [Nat.shiftLeft_eq, Nat.mul_assoc, Nat.mul_comm (2 ^ k) d]
      exact roundDiv_mul x (by positivity)
    simp only [hunits, hlog, Nat.add_sub_cancel_left, hexact]
    exact Nat.min_eq_left hm

/-! ## The search for digits -/

theorem unitsPerOne_pos : 0 < unitsPerOne := by decide +kernel

/-- A unit is a whole number of `10^-149`, and a large one. -/
theorem exists_finest : ∃ c, 100 ≤ c.log2 ∧ Nat.pow 10 149 = c * unitsPerOne :=
  ⟨Nat.pow 5 149, by decide +kernel, by decide +kernel⟩

theorem unitsOfMagnitude_pos {m : Nat} (hm : 0 < m) : 0 < unitsOfMagnitude m := by
  rcases units_cases m with ⟨-, hunits⟩ | ⟨k, x, -, hlow, -, hunits⟩
  · omega
  · have hx : 0 < x := Nat.lt_of_lt_of_le (by decide) hlow
    rw [hunits]
    positivity

section Finest

variable {c m : Nat} (hpow : Nat.pow 10 149 = c * unitsPerOne)
include hpow

/-- On the finest grid the value is a multiple, and nothing is left over. -/
theorem gridNeighbours_finest (units : Nat) :
    ∃ above, gridNeighbours units (-149) = [⟨units * c, -149⟩, above] := by
  have hneg : ¬ (0 : Int) ≤ -149 := by decide
  have hnat : (-(-149 : Int)).toNat = 149 := rfl
  have hquotient : gridQuotient units (-149) = (units * c * unitsPerOne, unitsPerOne) := by
    unfold gridQuotient
    rw [if_neg hneg, hnat, hpow, Nat.mul_assoc]
  unfold gridNeighbours
  simp only [hquotient, Nat.mul_div_cancel _ unitsPerOne_pos, Nat.mul_mod_left, Nat.mul_zero,
    if_pos unitsPerOne_pos]
  exact ⟨_, rfl⟩

/-- It reads back. -/
theorem toMagnitude_finest (hc : 100 ≤ c.log2) (hm : 0 < m) (hinf : m ≤ infinityMagnitude) :
    (⟨unitsOfMagnitude m * c, -149⟩ : Decimal).toMagnitude = m := by
  have hunits := unitsOfMagnitude_pos hm
  have hcpos : c ≠ 0 := by
    rintro rfl
    simp at hc
  have hne : unitsOfMagnitude m * c ≠ 0 := Nat.mul_ne_zero hunits.ne' hcpos
  have hlog : c.log2 ≤ (unitsOfMagnitude m * c).log2 :=
    (Nat.le_log2 hne).2 (Nat.le_trans (Nat.log2_self_le hcpos) (Nat.le_mul_of_pos_left _ hunits))
  have hneg : ¬ (0 : Int) ≤ -149 := by decide
  have hnat : (-(-149 : Int)).toNat = 149 := rfl
  have hsmall : ¬ (-149 : Int) < -(((unitsOfMagnitude m * c).log2 : Int) + 61) := by
    clear hpow
    omega
  unfold Decimal.toMagnitude Decimal.unitQuotient
  simp only [if_neg hne, if_neg hsmall, if_neg hneg, hnat, hpow, Nat.mul_assoc]
  rw [if_neg (by decide)]
  exact roundMagnitude_units (Nat.mul_pos (Nat.pos_of_ne_zero hcpos) unitsPerOne_pos) hinf

end Finest

theorem exponent_of_mem_gridNeighbours {units : Nat} {p : Int} {d : Decimal}
    (h : d ∈ gridNeighbours units p) : d.exponent = p := by
  unfold gridNeighbours at h
  simp only at h
  split at h
  · simp only [List.mem_cons, List.not_mem_nil, or_false] at h
    rcases h with rfl | rfl <;> rfl
  · simp only [List.mem_cons, List.not_mem_nil, or_false] at h
    rcases h with rfl | rfl <;> rfl

/-- **The shortest digits read back,** and stand on one of the grids. -/
theorem toMagnitude_shortest {m : Nat} (hm : 0 < m) (hinf : m ≤ infinityMagnitude) :
    (shortest m).toMagnitude = m ∧ (shortest m).exponent < 40 := by
  have hshortest : shortest m = (grids.findSome? fun p =>
      (gridNeighbours (unitsOfMagnitude m) p).find? fun d => d.toMagnitude == m).getD ⟨0, 0⟩ := rfl
  rw [hshortest]
  cases h : grids.findSome? fun p =>
      (gridNeighbours (unitsOfMagnitude m) p).find? fun d => d.toMagnitude == m with
  | some d =>
      obtain ⟨p, hp, hfound⟩ := List.exists_of_findSome?_eq_some h
      have hreads : (d.toMagnitude == m) = true :=
        List.find?_some (p := fun d : Decimal => d.toMagnitude == m) hfound
      have hexponent : d.exponent = p := exponent_of_mem_gridNeighbours (List.mem_of_find?_eq_some hfound)
      obtain ⟨i, -, rfl⟩ := List.mem_map.1 hp
      exact ⟨beq_iff_eq.1 hreads, by rw [Option.getD_some, hexponent]; omega⟩
  | none =>
      obtain ⟨c, hc, hpow⟩ := exists_finest
      obtain ⟨above, hgrid⟩ := gridNeighbours_finest hpow (unitsOfMagnitude m)
      rw [List.findSome?_eq_none_iff] at h
      have hnone := h (-149) (List.mem_map.2 ⟨188, List.mem_range.2 (by decide), rfl⟩)
      rw [hgrid, List.find?_eq_none] at hnone
      exact absurd (beq_iff_eq.2 (toMagnitude_finest hpow hc hm hinf)) (hnone _ List.mem_cons_self)

end Single

namespace Decimal

/-- **Zeros behind the digits** do not change which single is nearest. -/
theorem toMagnitude_zeros {d : Decimal} (hpos : 0 ≤ d.exponent) (hlimit : d.exponent < 40)
    (hd : d.digits ≠ 0) (j : Nat) (hj : j < 61) :
    (⟨Nat.pow 10 (d.exponent.toNat + j) * d.digits, -(j : Int)⟩ : Decimal).toMagnitude =
      d.toMagnitude := by
  have hten : ∀ k, 0 < Nat.pow 10 k := fun k => Nat.pow_pos (by decide)
  have hne : Nat.pow 10 (d.exponent.toNat + j) * d.digits ≠ 0 := Nat.mul_ne_zero (hten _).ne' hd
  have hquotient : (⟨Nat.pow 10 (d.exponent.toNat + j) * d.digits, -(j : Int)⟩ : Decimal).unitQuotient =
      (d.unitQuotient.1 * Nat.pow 10 j, d.unitQuotient.2 * Nat.pow 10 j) := by
    have hsum : Nat.pow 10 (d.exponent.toNat + j) = Nat.pow 10 d.exponent.toNat * Nat.pow 10 j :=
      Nat.pow_add 10 _ _
    unfold unitQuotient
    rw [if_pos hpos]
    rcases j with _ | j
    · simp [Nat.mul_comm]
    · have hnat : (-(-((j + 1 : Nat) : Int))).toNat = j + 1 := by omega
      rw [if_neg (by simp only; omega)]
      simp only [hnat, hsum, Nat.one_mul, Prod.mk.injEq, and_true]
      ring
  rw [toMagnitude, if_neg hne, if_neg (by simp only; omega), if_neg (by simp only; omega), hquotient,
    Single.roundMagnitude_mul_right _ _ (hten j), toMagnitude, if_neg hd,
    if_neg (by omega), if_neg (by omega)]

/-! ## Reading numerals -/

/-- What may follow digits without being taken for one of them. -/
def EndsDigits (rest : List Char) : Prop := ∀ c, rest.head? = some c → c.isDigit = false

theorem endsDigits_nil : EndsDigits [] := nofun

theorem endsDigits_cons {c : Char} {rest : List Char} (hc : c.isDigit = false) :
    EndsDigits (c :: rest) := by
  rintro _ ⟨⟩
  exact hc

theorem takeWhile_isDigit {digits : List Char} (rest : List Char)
    (hdigits : ∀ c ∈ digits, c.isDigit = true) (hrest : EndsDigits rest) :
    (digits ++ rest).takeWhile Char.isDigit = digits ∧
      (digits ++ rest).dropWhile Char.isDigit = rest := by
  have hstop : rest.takeWhile Char.isDigit = [] ∧ rest.dropWhile Char.isDigit = rest := by
    cases rest with
    | nil => exact ⟨rfl, rfl⟩
    | cons c rest =>
        have hc := hrest c rfl
        simp [hc]
  rw [List.takeWhile_append_of_pos hdigits, List.dropWhile_append_of_pos hdigits, hstop.1, hstop.2,
    List.append_nil]
  exact ⟨rfl, rfl⟩

/-- Digits without a point. -/
theorem ofText?_whole {whole rest : List Char} (hne : whole ≠ [])
    (hwhole : ∀ c ∈ whole, c.isDigit = true) (hrest : EndsDigits rest)
    (hpoint : rest.head? ≠ some '.') :
    ofText? (whole ++ rest) = (exponent? rest).map fun e => ⟨Text.natOfDigits whole, e⟩ := by
  obtain ⟨htake, hdrop⟩ := takeWhile_isDigit rest hwhole hrest
  unfold ofText?
  simp only [htake, hdrop]
  split
  · exact absurd rfl hpoint
  · simp [hne]

/-- Digits with a point among them. -/
theorem ofText?_point (whole fraction : List Char) {rest : List Char} (hne : whole ≠ [])
    (hwhole : ∀ c ∈ whole, c.isDigit = true) (hfraction : ∀ c ∈ fraction, c.isDigit = true)
    (hrest : EndsDigits rest) :
    ofText? (whole ++ '.' :: (fraction ++ rest)) = (exponent? rest).map fun e =>
      ⟨Text.natOfDigits (whole ++ fraction), e - fraction.length⟩ := by
  obtain ⟨htake, hdrop⟩ := takeWhile_isDigit ('.' :: (fraction ++ rest)) hwhole (endsDigits_cons (by decide))
  obtain ⟨htake', hdrop'⟩ := takeWhile_isDigit rest hfraction hrest
  unfold ofText?
  simp only [htake, hdrop, htake', hdrop']
  simp [hne]

theorem exponent?_digitsOfInt (e : Int) : exponent? ('e' :: Text.digitsOfInt e) = some e := by
  simp only [exponent?, decide_true, Bool.true_or, if_true, Text.splitSign_digitsOfInt,
    Text.nat?_digitsOfNat, Option.bind_eq_bind, Option.bind_some, Option.pure_def, Option.map_some,
    Text.signed_natAbs]

end Decimal

namespace Layout

open Decimal (endsDigits_nil endsDigits_cons)

/-- **Padding.** The decimal, or the same one with zeros behind its digits. -/
def Pads (d d' : Decimal) : Prop :=
  d' = d ∨ 0 ≤ d.exponent ∧ ∃ j < 61, d' =
    ⟨Nat.pow 10 (d.exponent.toNat + j) * d.digits, -((j : Nat) : Int)⟩

theorem Pads.toMagnitude_eq {d d' : Decimal} (h : Pads d d') (hd : d.digits ≠ 0)
    (hlimit : d.exponent < 40) : d'.toMagnitude = d.toMagnitude := by
  rcases h with rfl | ⟨hpos, j, hj, rfl⟩
  · rfl
  · exact Decimal.toMagnitude_zeros hpos hlimit hd j hj

/-- A digit string with a point in it, or zeros at either end. -/
theorem ofText?_positional (l : Layout) {digits : List Char} (scale : Int) (hne : digits ≠ [])
    (hdigits : ∀ c ∈ digits, c.isDigit = true) :
    ∃ d', Decimal.ofText? (l.positional digits scale) = some d' ∧
      Pads ⟨Text.natOfDigits digits, scale⟩ d' := by
  have hlength : 0 < digits.length := List.length_pos_of_ne_nil hne
  have hzeros : ∀ k, ∀ c ∈ List.replicate k '0', c.isDigit = true := by
    intro k c hc
    rw [List.eq_of_mem_replicate hc]
    rfl
  unfold positional
  simp only
  split
  · rename_i hpos
    have hpadded : ∀ c ∈ digits ++ List.replicate scale.toNat '0', c.isDigit = true :=
      fun c hc => (List.mem_append.1 hc).elim (hdigits c) (hzeros _ c)
    have hne' : digits ++ List.replicate scale.toNat '0' ≠ [] := by simp [hne]
    cases l.pointed with
    | true =>
        have hread := Decimal.ofText?_point _ _ hne' hpadded (hzeros 1) endsDigits_nil
        have hvalue : Text.natOfDigits (digits ++ List.replicate scale.toNat '0' ++ List.replicate 1 '0') =
            Nat.pow 10 (scale.toNat + 1) * Text.natOfDigits digits := by
          rw [List.append_assoc, List.replicate_append_replicate, Text.natOfDigits_append_zeros]
        rw [List.append_nil, hvalue] at hread
        exact ⟨_, hread, .inr ⟨hpos, 1, by decide, rfl⟩⟩
    | false =>
        have hread := Decimal.ofText?_whole hne' hpadded endsDigits_nil (by simp)
        rw [Text.natOfDigits_append_zeros] at hread
        exact ⟨_, hread, .inr ⟨hpos, 0, by decide, rfl⟩⟩
  · rename_i hneg
    split
    · rename_i hpoint
      have htake : digits.take ((digits.length : Int) + scale).toNat ≠ [] := by
        intro hnil
        rw [List.take_eq_nil_iff] at hnil
        rcases hnil with hnil | hnil
        · omega
        · exact hne hnil
      have hread := Decimal.ofText?_point _ (digits.drop ((digits.length : Int) + scale).toNat) htake
        (fun c hc => hdigits c (List.mem_of_mem_take hc))
        (fun c hc => hdigits c (List.mem_of_mem_drop hc)) endsDigits_nil
      rw [List.append_nil, List.take_append_drop] at hread
      refine ⟨_, hread, .inl ?_⟩
      rw [Decimal.mk.injEq, List.length_drop]
      exact ⟨rfl, by omega⟩
    · rename_i hpoint
      have hread := Decimal.ofText?_point ['0']
        (List.replicate (-((digits.length : Int) + scale)).toNat '0' ++ digits) (by simp) (hzeros 1)
        (fun c hc => (List.mem_append.1 hc).elim (hzeros _ c) (hdigits c)) endsDigits_nil
      rw [List.append_nil] at hread
      refine ⟨_, hread, .inl ?_⟩
      rw [Decimal.mk.injEq, List.length_append, List.length_replicate]
      refine ⟨?_, by omega⟩
      have hlead : ['0'] ++ (List.replicate (-((digits.length : Int) + scale)).toNat '0' ++ digits) =
          List.replicate ((-((digits.length : Int) + scale)).toNat + 1) '0' ++ digits := rfl
      rw [hlead, Text.natOfDigits_zeros_append]

/-- A digit string with a point behind its first digit, and an exponent. -/
theorem ofText?_scientific {digits : List Char} (scale : Int) (hne : digits ≠ [])
    (hdigits : ∀ c ∈ digits, c.isDigit = true) :
    Decimal.ofText? (scientific digits (digits.length - 1 + scale)) =
      some ⟨Text.natOfDigits digits, scale⟩ := by
  have hends : ∀ e : Int, Decimal.EndsDigits ('e' :: Text.digitsOfInt e) :=
    fun e => endsDigits_cons (by decide)
  rcases digits with _ | ⟨first, _ | ⟨second, rest⟩⟩
  · exact absurd rfl hne
  · have hread := Decimal.ofText?_whole hne hdigits (hends scale) (by simp)
    rw [Decimal.exponent?_digitsOfInt] at hread
    simpa [scientific] using hread
  · have hread := Decimal.ofText?_point [first] (second :: rest) (by simp)
      (fun c hc => hdigits c (by simp_all)) (fun c hc => hdigits c (List.mem_cons_of_mem _ hc))
      (hends ((first :: second :: rest).length - 1 + scale))
    rw [Decimal.exponent?_digitsOfInt] at hread
    refine hread.trans ?_
    simp only [Option.map_some, Option.some.injEq, Decimal.mk.injEq, List.length_cons]
    exact ⟨rfl, by omega⟩

/-- A decimal starts with a digit. -/
theorem exists_decimal (l : Layout) (d : Decimal) :
    ∃ c cs, l.decimal d = c :: cs ∧ c.isDigit = true := by
  obtain ⟨c, cs, heq, hc, -⟩ := Text.exists_digitsOfNat d.digits
  unfold decimal
  rw [heq]
  simp only
  split
  · unfold positional
    simp only
    split
    · exact ⟨c, _, rfl, hc⟩
    · split
      · rename_i hpoint
        obtain ⟨n, hn⟩ : ∃ n, (((c :: cs).length : Int) + d.exponent).toNat = n + 1 :=
          ⟨(((c :: cs).length : Int) + d.exponent).toNat - 1, by omega⟩
        rw [hn]
        exact ⟨c, _, rfl, hc⟩
      · exact ⟨'0', _, rfl, rfl⟩
  · cases cs with
    | nil | cons second rest => exact ⟨c, _, rfl, hc⟩

/-- The characters of numbers that are written with digits. -/
def isNumeralChar (c : Char) : Bool := c.isDigit || c == '-' || c == '.' || c == 'e'

theorem isNumeralChar_of_isDigit {c : Char} (hc : c.isDigit = true) : isNumeralChar c = true := by
  simp [isNumeralChar, hc]

theorem isNumeralChar_digitsOfInt {e : Int} {c : Char} (hc : c ∈ Text.digitsOfInt e) :
    isNumeralChar c = true := by
  unfold Text.digitsOfInt at hc
  split at hc
  · rcases List.mem_cons.1 hc with rfl | hc
    · rfl
    · exact isNumeralChar_of_isDigit (Text.isDigit_of_mem_digitsOfNat hc)
  · exact isNumeralChar_of_isDigit (Text.isDigit_of_mem_digitsOfNat hc)

theorem mem_positional {l : Layout} {digits : List Char} {scale : Int} {c : Char}
    (hc : c ∈ l.positional digits scale) : c ∈ digits ∨ c = '0' ∨ c = '.' := by
  unfold positional at hc
  simp only at hc
  split at hc
  · cases hpointed : l.pointed <;> simp [hpointed] at hc <;> tauto
  · split at hc
    · rw [List.mem_append, List.mem_cons] at hc
      rcases hc with hc | hc | hc
      · exact .inl (List.mem_of_mem_take hc)
      · exact .inr (.inr hc)
      · exact .inl (List.mem_of_mem_drop hc)
    · simp at hc
      tauto

theorem mem_scientific {digits : List Char} {e : Int} {c : Char} (hc : c ∈ scientific digits e) :
    c ∈ digits ∨ c = '.' ∨ c = 'e' ∨ c ∈ Text.digitsOfInt e := by
  unfold scientific at hc
  rw [List.mem_append, List.mem_cons] at hc
  rcases hc with hc | hc | hc
  · split at hc
    · simp only [List.mem_cons] at hc ⊢
      tauto
    · exact .inl hc
  · exact .inr (.inr (.inl hc))
  · exact .inr (.inr (.inr hc))

theorem isNumeralChar_decimal {l : Layout} {d : Decimal} {c : Char} (hc : c ∈ l.decimal d) :
    isNumeralChar c = true := by
  unfold decimal at hc
  simp only at hc
  split at hc
  · rcases mem_positional hc with hc | rfl | rfl
    · exact isNumeralChar_of_isDigit (Text.isDigit_of_mem_digitsOfNat hc)
    · rfl
    · rfl
  · rcases mem_scientific hc with hc | rfl | rfl | hc
    · exact isNumeralChar_of_isDigit (Text.isDigit_of_mem_digitsOfNat hc)
    · rfl
    · rfl
    · exact isNumeralChar_digitsOfInt hc

/-- **The mark of a listing:** a point or an exponent, so that no integer is read. -/
theorem exists_mark (d : Decimal) : ∃ c ∈ source.decimal d, c.isDigit = false := by
  unfold decimal
  simp only
  split
  · refine ⟨'.', ?_, rfl⟩
    unfold positional
    simp only
    split
    · simp [source]
    · split <;> simp
  · refine ⟨'e', ?_, rfl⟩
    unfold scientific
    simp

/-- **A decimal reads back,** perhaps with more zeros. -/
theorem ofText?_decimal (l : Layout) (d : Decimal) :
    ∃ d', Decimal.ofText? (l.decimal d) = some d' ∧ Pads d d' := by
  have hne := Text.digitsOfNat_ne_nil d.digits
  have hdigits : ∀ c ∈ Text.digitsOfNat d.digits, c.isDigit = true :=
    fun c => Text.isDigit_of_mem_digitsOfNat
  unfold decimal
  simp only
  split
  · have hread := l.ofText?_positional d.exponent hne hdigits
    rwa [Text.natOfDigits_digitsOfNat] at hread
  · rw [ofText?_scientific d.exponent hne hdigits, Text.natOfDigits_digitsOfNat]
    exact ⟨_, rfl, .inl rfl⟩

end Layout

namespace Single

/-- The bit pattern is its magnitude with the sign. -/
theorem ofMagnitude_magnitude (x : Single) : ofMagnitude x.negative x.magnitude = x := by
  have hlt : x.bits.toNat < 2 ^ 32 := x.bits.toNat_lt
  have hsign : signBit = 0x80000000 := rfl
  have hvalue : (if x.negative then x.magnitude + signBit else x.magnitude) = x.bits.toNat := by
    unfold negative magnitude
    rw [hsign]
    by_cases hneg : 0x80000000 ≤ x.bits.toNat
    · rw [if_pos (decide_eq_true hneg)]
      omega
    · rw [if_neg (by simpa using hneg)]
      omega
  rw [ofMagnitude, hvalue, UInt32.ofNat_toNat]

theorem magnitude_le_of_not_isNaN {x : Single} (hx : x.isNaN = false) :
    x.magnitude ≤ infinityMagnitude := by
  simpa [isNaN] using hx

/-- **A magnitude reads back,** an infinite one by its word. -/
theorem ofText?_magnitude (l : Layout) {m : Nat} (hm : m ≤ infinityMagnitude) :
    Text.splitSign (l.magnitude m) = (false, l.magnitude m) ∧
      ((Decimal.ofText? (l.magnitude m)).map Decimal.toMagnitude <|>
        magnitudeOfWord? (l.magnitude m)) = some m := by
  unfold Layout.magnitude
  split
  · rename_i hinf
    subst hinf
    exact ⟨rfl, by decide +kernel⟩
  · split
    · rename_i hzero
      subst hzero
      cases l.pointed with
      | true | false => exact ⟨rfl, by decide +kernel⟩
    · rename_i hzero
      obtain ⟨hreads, hlimit⟩ := toMagnitude_shortest (Nat.pos_of_ne_zero hzero) hm
      have hdigits : (shortest m).digits ≠ 0 := by
        intro hd
        rw [Decimal.toMagnitude, if_pos hd] at hreads
        exact hzero hreads.symm
      obtain ⟨d', hread, hpads⟩ := l.ofText?_decimal (shortest m)
      constructor
      · obtain ⟨c, cs, heq, hc⟩ := l.exists_decimal (shortest m)
        rw [heq, Text.splitSign_of_isDigit hc]
      · rw [hread, Option.map_some, hpads.toMagnitude_eq hdigits hlimit, hreads]
        rfl

theorem splitSign_single (l : Layout) {x : Single} (hx : x.isNaN = false) :
    Text.splitSign (l.single x) = (x.negative, l.magnitude x.magnitude) := by
  obtain ⟨hsign, -⟩ := ofText?_magnitude l (magnitude_le_of_not_isNaN hx)
  unfold Layout.single
  rw [if_neg (by simp [hx])]
  cases x.negative with
  | true =>
      rw [if_pos rfl]
      rfl
  | false =>
      rw [if_neg (by decide)]
      exact hsign

/-- **A single reads back** from either layout, unless it is a NaN. -/
theorem ofText?_single (l : Layout) {x : Single} (hx : x.isNaN = false) :
    ofText? (l.single x) = some x := by
  obtain ⟨-, hread⟩ := ofText?_magnitude l (magnitude_le_of_not_isNaN hx)
  rw [ofText?, splitSign_single l hx]
  simp only [hread, Option.map_some, ofMagnitude_magnitude]

/-! ## The text of a finite single -/

/-- Neither infinite nor a NaN. -/
def isFinite (x : Single) : Bool := x.magnitude < infinityMagnitude

theorem isFinite_iff {x : Single} : x.isFinite = true ↔ x.magnitude < infinityMagnitude := by
  simp [isFinite]

theorem isNaN_of_isFinite {x : Single} (hx : x.isFinite = true) : x.isNaN = false := by
  have hlt := isFinite_iff.1 hx
  have hle : ¬ infinityMagnitude < x.magnitude := Nat.not_lt.2 (Nat.le_of_lt hlt)
  simp [isNaN, hle]

/-- What is not finite and no NaN is infinite. -/
theorem magnitude_eq_of_not_isFinite {x : Single} (hx : x.isNaN = false) (h : x.isFinite = false) :
    x.magnitude = infinityMagnitude := by
  have hle := magnitude_le_of_not_isNaN hx
  have hge : ¬ x.magnitude < infinityMagnitude := by
    rw [← isFinite_iff, h]
    decide
  omega

theorem isNumeralChar_single {l : Layout} {x : Single} {c : Char} (hx : x.isFinite = true)
    (hc : c ∈ l.single x) : Layout.isNumeralChar c = true := by
  have hmagnitude : ∀ c ∈ l.magnitude x.magnitude, Layout.isNumeralChar c = true := by
    intro c hc
    have hlt := isFinite_iff.1 hx
    unfold Layout.magnitude at hc
    rw [if_neg (Nat.ne_of_lt hlt)] at hc
    split at hc
    · have hzero : c = '0' ∨ c = '.' := by
        split at hc
        · simp only [List.mem_cons, List.not_mem_nil, or_false] at hc
          tauto
        · exact .inl (List.mem_singleton.1 hc)
      rcases hzero with rfl | rfl <;> rfl
    · exact Layout.isNumeralChar_decimal hc
  unfold Layout.single at hc
  rw [if_neg (by simp [isNaN_of_isFinite hx])] at hc
  split at hc
  · rcases List.mem_cons.1 hc with rfl | hc
    · rfl
    · exact hmagnitude c hc
  · exact hmagnitude c hc

/-- A listed single is no integer. -/
theorem int32?_source {x : Single} (hx : x.isFinite = true) :
    Text.int32? (Layout.source.single x) = none := by
  have hmark : ∃ c ∈ Layout.source.magnitude x.magnitude, c.isDigit = false := by
    unfold Layout.magnitude
    split
    · exact ⟨'i', by simp, rfl⟩
    · split
      · exact ⟨'.', by simp [Layout.source], rfl⟩
      · exact Layout.exists_mark _
  obtain ⟨c, hc, hmark⟩ := hmark
  have hnat : Text.nat? (Layout.source.magnitude x.magnitude) = none := by
    unfold Text.nat?
    rw [if_neg]
    intro h
    rw [Bool.and_eq_true, List.all_eq_true] at h
    rw [h.2 c hc] at hmark
    cases hmark
  rw [Text.int32?, splitSign_single _ (isNaN_of_isFinite hx)]
  simp only [hnat, Option.bind_none]

end Single
end CogMachine
