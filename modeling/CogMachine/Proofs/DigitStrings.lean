import CogMachine.Proofs.Rereading

/-!
# Literals that are digit strings

The readers of literals are tried one after the other, and what the reader of integers refuses is left to the
reader of floats. So a digit string beyond the integers is read as a float, with nothing in its text to mark
it as one. This is the only way to a float without a mark.

- `Text.DigitString`: an optional sign and digits, with the number they write.
- `Text.MarksFloat`: a point, an exponent, the suffix or one of the words.
- `Value.ofText?_digitString`: what digit strings are read as, whichever numbers they write.
- `Value.marked_or_large`: the texts that are read as floats.
- `Value.ReadsByMark`: what a text should be read as, and `Value.digitStrings_read`: for which texts it is so.
-/

namespace CogMachine

namespace Text

variable {cs ds : List Char} {c : Char} {n : Int} {k : Nat}

/-! ## Digit strings -/

/-- One digit or more. -/
structure Digits (ds : List Char) : Prop where
  nonempty : ds ≠ []
  isDigit : ∀ c ∈ ds, c.isDigit = true

/-- **Digit strings:** an optional sign and one digit or more, with the number they write. -/
inductive DigitString : List Char → Int → Prop where
  | unsigned {ds : List Char} (h : Digits ds) : DigitString ds (Nat.ofDigitChars 10 ds 0)
  | plus {ds : List Char} (h : Digits ds) : DigitString ('+' :: ds) (Nat.ofDigitChars 10 ds 0)
  | minus {ds : List Char} (h : Digits ds) : DigitString ('-' :: ds) (-(Nat.ofDigitChars 10 ds 0 : Int))

theorem nat?_eq_some : nat? cs = some k ↔ Digits cs ∧ k = natOfDigits cs := by
  constructor
  · intro h
    unfold nat? at h
    split at h
    · rename_i hdigits
      rw [Bool.and_eq_true, List.all_eq_true] at hdigits
      cases h
      exact ⟨⟨by simpa using hdigits.1, hdigits.2⟩, rfl⟩
    · cases h
  · rintro ⟨hdigits, rfl⟩
    exact nat?_of_digits hdigits.nonempty hdigits.isDigit

theorem splitSign_cases (cs : List Char) :
    (∃ rest, cs = '-' :: rest ∧ splitSign cs = (true, rest)) ∨
      (∃ rest, cs = '+' :: rest ∧ splitSign cs = (false, rest)) ∨ splitSign cs = (false, cs) := by
  unfold splitSign
  split
  · exact .inl ⟨_, rfl, rfl⟩
  · exact .inr (.inl ⟨_, rfl, rfl⟩)
  · exact .inr (.inr rfl)

/-- Digits behind a sign are a digit string. -/
theorem digitString_of_nat? (h : nat? (splitSign cs).2 = some k) :
    DigitString cs (if (splitSign cs).1 then -(k : Int) else k) := by
  obtain ⟨hdigits, rfl⟩ := nat?_eq_some.1 h
  rcases splitSign_cases cs with ⟨rest, rfl, heq⟩ | ⟨rest, rfl, heq⟩ | heq
  · rw [heq] at hdigits ⊢
    exact .minus hdigits
  · rw [heq] at hdigits ⊢
    exact .plus hdigits
  · rw [heq] at hdigits ⊢
    exact .unsigned hdigits

/-- The sign of a digit string, and the number behind it. -/
theorem DigitString.splitSign_eq (h : DigitString cs n) :
    ∃ negative ds, splitSign cs = (negative, ds) ∧ Digits ds ∧
      n = if negative then -(natOfDigits ds : Int) else natOfDigits ds := by
  cases h with
  | unsigned hdigits =>
      cases cs with
      | nil => exact absurd rfl hdigits.nonempty
      | cons c cs => exact ⟨false, _, splitSign_of_isDigit (hdigits.isDigit c (by simp)), hdigits, rfl⟩
  | plus hdigits => exact ⟨false, _, rfl, hdigits, rfl⟩
  | minus hdigits => exact ⟨true, _, rfl, hdigits, rfl⟩

theorem DigitString.mem_cases (h : DigitString cs n) (hc : c ∈ cs) :
    c.isDigit = true ∨ c = '+' ∨ c = '-' := by
  cases h with
  | unsigned hdigits => exact .inl (hdigits.isDigit c hc)
  | plus hdigits =>
      rcases List.mem_cons.1 hc with rfl | hc
      · exact .inr (.inl rfl)
      · exact .inl (hdigits.isDigit c hc)
  | minus hdigits =>
      rcases List.mem_cons.1 hc with rfl | hc
      · exact .inr (.inr rfl)
      · exact .inl (hdigits.isDigit c hc)

/-- A character that is neither a digit nor a sign is in no digit string. -/
theorem DigitString.notMem (h : DigitString cs n) (hc : c.isDigit = false) (hplus : c ≠ '+')
    (hminus : c ≠ '-') : c ∉ cs := by
  intro hmem
  rcases h.mem_cases hmem with hdigit | heq | heq
  · rw [hc] at hdigit
    cases hdigit
  · exact hplus heq
  · exact hminus heq

theorem DigitString.exists_head (h : DigitString cs n) : ∃ c rest, cs = c :: rest := by
  cases h with
  | unsigned hdigits => exact List.exists_cons_of_ne_nil hdigits.nonempty
  | plus _ | minus _ => exact ⟨_, _, rfl⟩

/-- Whether a number is in the range of integers. -/
def FitsInt (n : Int) : Prop := -0x80000000 ≤ n ∧ n < 0x80000000

instance (n : Int) : Decidable (FitsInt n) := inferInstanceAs (Decidable (_ ∧ _))

/-- **Integers are read exactly,** and only if they are in range. -/
theorem DigitString.int32?_eq (h : DigitString cs n) :
    int32? cs = if FitsInt n then some (Int32.ofInt n) else none := by
  obtain ⟨negative, ds, hsign, hdigits, rfl⟩ := h.splitSign_eq
  unfold int32?
  rw [hsign]
  simp only [nat?_of_digits hdigits.nonempty hdigits.isDigit, Option.bind_some, Bool.and_eq_true,
    decide_eq_true_eq]
  exact if_congr Iff.rfl rfl rfl

/-- A text that is no integer is no digit string, or one that is out of range. -/
theorem not_fitsInt_of_int32? (h : int32? cs = none) (hk : nat? (splitSign cs).2 = some k) :
    ∃ n, DigitString cs n ∧ ¬FitsInt n := by
  have hdigits := digitString_of_nat? hk
  refine ⟨_, hdigits, fun hfits => ?_⟩
  rw [hdigits.int32?_eq, if_pos hfits] at h
  cases h

/-! ## Marks of floats -/

/-- **Marks of a float:** a point; an exponent behind a digit; the suffix; one of the words, in any case. -/
inductive MarksFloat : List Char → Prop where
  | point {cs : List Char} (h : '.' ∈ cs) : MarksFloat cs
  | exponent {before after : List Char} {e : Char} {n : Int} (hbefore : ∃ c ∈ before, c.isDigit = true)
      (he : e = 'e' ∨ e = 'E') (hafter : DigitString after n) : MarksFloat (before ++ e :: after)
  | suffix {cs : List Char} (h : cs.getLast? = some 'f') : MarksFloat cs
  | word {sign word : List Char} (hsign : sign ∈ [[], ['+'], ['-']])
      (hword : word.map Char.toLower ∈ ["nan".toList, "inf".toList, "infinity".toList]) :
      MarksFloat (sign ++ word)

/-- Only letters become letters. -/
theorem toLower_of_isDigit (hc : c.isDigit = true) : c.toLower = c := by
  simp only [Char.isDigit, Bool.and_eq_true, decide_eq_true_eq, ge_iff_le, UInt32.le_iff_toNat_le] at hc
  have hnine : c.val.toNat ≤ 57 := hc.2
  unfold Char.toLower
  rw [dif_neg]
  rintro ⟨hletter, -⟩
  rw [ge_iff_le, UInt32.le_iff_toNat_le] at hletter
  have hletter : 65 ≤ c.val.toNat := hletter
  omega

/-- **No digit string is marked.** -/
theorem DigitString.not_marksFloat (h : DigitString cs n) : ¬MarksFloat cs := by
  intro hmarks
  cases hmarks with
  | point hpoint => exact h.notMem rfl (by decide) (by decide) hpoint
  | exponent _ he _ =>
      rcases he with rfl | rfl
      · exact h.notMem (c := 'e') rfl (by decide) (by decide) (by simp)
      · exact h.notMem (c := 'E') rfl (by decide) (by decide) (by simp)
  | suffix hlast => exact h.notMem rfl (by decide) (by decide) (List.mem_of_getLast? hlast)
  | @word sign word _ hword =>
      have hfirst : ∃ c ∈ word, c.toLower ∈ ['n', 'i'] := by
        cases word with
        | nil => simp at hword
        | cons c word =>
            refine ⟨c, by simp, ?_⟩
            simp at hword
            rcases hword with ⟨hc, -⟩ | ⟨hc, -⟩ | ⟨hc, -⟩ <;> simp [hc]
      -- The first letter of a word is no digit, and no sign.
      obtain ⟨c, hc, hletter⟩ := hfirst
      rcases h.mem_cases (List.mem_append_right sign hc) with hdigit | rfl | rfl
      · rw [toLower_of_isDigit hdigit] at hletter
        rcases List.mem_pair.1 hletter with rfl | rfl <;> cases hdigit
      · revert hletter
        decide
      · revert hletter
        decide

end Text

open Text (DigitString Digits MarksFloat FitsInt)

variable {cs : List Char} {n : Int}

/-! ## Floats -/

namespace Single

/-- The single nearest to a whole number. -/
def ofInteger (n : Int) : Single := ofUnits (n < 0) (n.natAbs * unitsPerOne) 1

/-- A decimal without an exponent is rounded as a whole number. -/
theorem toMagnitude_whole {k : Nat} (hk : k ≠ 0) :
    Decimal.toMagnitude ⟨k, 0⟩ = roundMagnitude (k * unitsPerOne) 1 := by
  have hlog : ¬(0 : Int) < -((k.log2 : Int) + 61) := by omega
  have hpow : Nat.pow 10 (0 : Int).toNat = 1 := rfl
  unfold Decimal.toMagnitude Decimal.unitQuotient
  simp only [if_neg hk, if_neg hlog]
  rw [if_neg (by decide), if_pos (by decide), hpow, Nat.mul_one]

/-- **A digit string is read as a float** by the number it writes. -/
theorem ofText?_digitString (h : DigitString cs n) (hn : n ≠ 0) : ofText? cs = some (ofInteger n) := by
  obtain ⟨negative, ds, hsign, hdigits, rfl⟩ := h.splitSign_eq
  have hk : Text.natOfDigits ds ≠ 0 := by
    intro hzero
    rw [hzero] at hn
    cases negative with
    | true | false => exact hn rfl
  have hdecimal : Decimal.ofText? ds = some ⟨Text.natOfDigits ds, 0⟩ := by
    have hwhole : Decimal.ofText? (ds ++ []) = some ⟨Text.natOfDigits ds, 0⟩ :=
      Decimal.ofText?_whole hdigits.nonempty hdigits.isDigit Decimal.endsDigits_nil (by simp)
    rwa [List.append_nil] at hwhole
  have hsigned : ofInteger (if negative then -(Text.natOfDigits ds : Int) else Text.natOfDigits ds) =
      ofMagnitude negative (roundMagnitude (Text.natOfDigits ds * unitsPerOne) 1) := by
    unfold ofInteger ofUnits
    cases negative with
    | true => simp [Nat.pos_of_ne_zero hk]
    | false =>
        have hnonneg : ¬(Text.natOfDigits ds : Int) < 0 := by omega
        simp [hnonneg]
  rw [ofText?, hsign, hsigned]
  simp only [hdecimal, Option.map_some, toMagnitude_whole hk]
  rfl

/-- A numeral without a point is digits, or it has an exponent behind them. -/
theorem marked_of_decimal (sign : List Char) {ds : List Char} {d : Decimal} (h : Decimal.ofText? ds = some d) :
    Digits ds ∨ MarksFloat (sign ++ ds) := by
  have hsplit := List.takeWhile_append_dropWhile (p := Char.isDigit) (l := ds)
  have hwhole : ∀ c ∈ ds.takeWhile Char.isDigit, c.isDigit = true := fun c hc => List.mem_takeWhile_imp hc
  unfold Decimal.ofText? at h
  simp only at h
  generalize ds.takeWhile Char.isDigit = whole at h hsplit hwhole
  generalize ds.dropWhile Char.isDigit = rest at h hsplit
  subst hsplit
  -- Behind the digits stands a point, nothing, or an exponent.
  split at h
  · exact .inr (.point (by simp))
  · split at h
    · cases h
    · rename_i hempty
      have hne : whole ≠ [] := by simpa using hempty
      obtain ⟨e, he, -⟩ := Option.map_eq_some_iff.1 h
      cases rest with
      | nil =>
          rw [List.append_nil]
          exact .inl ⟨hne, hwhole⟩
      | cons c after =>
          rw [Decimal.exponent?] at he
          by_cases hc : (c = 'e' || c = 'E') = true
          · rw [if_pos hc] at he
            obtain ⟨_, hk, -⟩ := Option.map_eq_some_iff.1 he
            obtain ⟨k, hk, -⟩ := Option.bind_eq_some_iff.1 hk
            obtain ⟨first, hfirst⟩ := List.exists_mem_of_ne_nil whole hne
            have hmark : MarksFloat ((sign ++ whole) ++ c :: after) :=
              .exponent ⟨first, List.mem_append_right sign hfirst, hwhole first hfirst⟩ (by simpa using hc)
                (Text.digitString_of_nat? hk)
            rw [List.append_assoc] at hmark
            exact .inr hmark
          · rw [if_neg hc] at he
            cases he

/-- What is read as a single is a digit string, or it is marked. -/
theorem marked_of_ofText? {x : Single} (h : ofText? cs = some x) :
    (∃ k, Text.nat? (Text.splitSign cs).2 = some k) ∨ MarksFloat cs := by
  have hsign : ∃ sign ∈ [[], ['+'], ['-']], cs = sign ++ (Text.splitSign cs).2 := by
    rcases Text.splitSign_cases cs with ⟨rest, rfl, heq⟩ | ⟨rest, rfl, heq⟩ | heq
    · exact ⟨['-'], by simp, by rw [heq]; rfl⟩
    · exact ⟨['+'], by simp, by rw [heq]; rfl⟩
    · exact ⟨[], by simp, by rw [heq]; rfl⟩
  obtain ⟨sign, hmem, hcs⟩ := hsign
  rw [ofText?] at h
  generalize hsplit : Text.splitSign cs = signed at h hcs
  obtain ⟨negative, ds⟩ := signed
  simp only at h hcs
  rw [hcs]
  obtain ⟨m, hm, -⟩ := Option.map_eq_some_iff.1 h
  rcases (Option.orElse_eq_some _ _ _).1 hm with hdecimal | ⟨-, hword⟩
  · obtain ⟨d, hd, -⟩ := Option.map_eq_some_iff.1 hdecimal
    rcases marked_of_decimal sign hd with hdigits | hmark
    · exact .inl ⟨_, Text.nat?_of_digits hdigits.nonempty hdigits.isDigit⟩
    · exact .inr hmark
  · refine .inr (.word hmem ?_)
    unfold magnitudeOfWord? at hword
    simp only at hword
    split at hword
    · rename_i heq
      rw [heq]
      simp
    · split at hword
      · rename_i heq
        rw [Bool.or_eq_true, decide_eq_true_eq, decide_eq_true_eq] at heq
        rcases heq with heq | heq <;> rw [heq] <;> simp
      · cases hword

end Single

/-! ## Literals -/

namespace Value

/-- **Digit strings are numbers** for the reader of literals: an integer if they fit, and else a float. -/
theorem ofText?_digitString (h : DigitString (Text.trim cs) n) :
    ofText? cs = some (if FitsInt n then .int (Int32.ofInt n) else .float (.ofInteger n)) := by
  have htrim : ofText? cs = ofText? (Text.trim cs) := by
    unfold ofText?
    rw [(Text.trimmed_trim cs).trim_eq]
  have hchar : ∀ c ∈ ['"', '(', 'v', 't', 'f', ':'], c ∉ Text.trim cs := by
    intro c hc
    have hother : ∀ c ∈ ['"', '(', 'v', 't', 'f', ':'], c.isDigit = false ∧ c ≠ '+' ∧ c ≠ '-' := by
      simp
    obtain ⟨hdigit, hplus, hminus⟩ := hother c hc
    exact h.notMem hdigit hplus hminus
  have hhead : ∀ c ∈ ['"', '(', 'v', 't', 'f', ':'], (Text.trim cs).head? ≠ some c :=
    fun c hc heq => hchar c hc (List.mem_of_head? heq)
  have hlast : (Text.trim cs).getLast? ≠ some 'f' := fun heq => hchar 'f' (by simp) (List.mem_of_getLast? heq)
  have hne : Text.trim cs ≠ [] := by
    obtain ⟨c, rest, heq⟩ := h.exists_head
    simp [heq]
  have hwords : Text.trim cs ∉ ["void".toList, "true".toList, "false".toList] := by
    simp only [List.mem_cons, List.not_mem_nil, or_false, not_or]
    refine ⟨fun heq => hhead 'v' (by simp) ?_, fun heq => hhead 't' (by simp) ?_,
      fun heq => hhead 'f' (by simp) ?_⟩ <;> rw [heq] <;> rfl
  rw [htrim, ofText?_eq_body (Text.trimmed_trim cs) hne hwords,
    bodyOfText?_of_head (hhead '"' (by simp)) (hhead '(' (by simp)), Text.splitAt?_eq_none (hchar ':' (by simp))]
  simp only [numberOfText?, h.int32?_eq, if_neg hlast]
  -- Out of range, the text is left to the reader of floats.
  by_cases hfits : FitsInt n
  · simp only [if_pos hfits]
  · have hn : n ≠ 0 := by
      rintro rfl
      exact hfits (by decide)
    simp only [if_neg hfits, Single.ofText?_digitString h hn, Option.map_some]

/-- **Floats are marked,** or they are digit strings out of range. -/
theorem marked_or_large {x : Single} (h : ofText? cs = some (.float x)) :
    MarksFloat (Text.trim cs) ∨ ∃ n, DigitString (Text.trim cs) n ∧ ¬FitsInt n := by
  rcases word_or_body_of_ofText? h with hword | ⟨b, hword⟩ | hbody
  · cases hword
  · cases hword
  generalize Text.trim cs = body at hbody
  have hnumber : numberOfText? body = some (.float x) := by
    unfold bodyOfText? at hbody
    split at hbody
    · obtain ⟨s, -, heq⟩ := Option.map_eq_some_iff.1 hbody
      cases heq
    · split at hbody
      · obtain ⟨w, -, heq⟩ := Option.map_eq_some_iff.1 hbody
        cases heq
      · split at hbody
        · obtain ⟨kind, -, hkind⟩ := Option.bind_eq_some_iff.1 hbody
          obtain ⟨id, -, heq⟩ := Option.map_eq_some_iff.1 hkind
          cases heq
        · exact hbody
  unfold numberOfText? at hnumber
  split at hnumber
  · cases hnumber
  · rename_i hint
    simp only at hnumber
    split at hnumber
    · rename_i hlast
      exact .inl (.suffix hlast)
    · obtain ⟨y, hy, -⟩ := Option.map_eq_some_iff.1 hnumber
      rcases Single.marked_of_ofText? hy with ⟨k, hk⟩ | hmark
      · exact .inr (Text.not_fitsInt_of_int32? hint hk)
      · exact .inl hmark

/-- **A text read by its marks:** a digit string is read as the integer it writes, or not at all, and what is
read as a float has a point, an exponent or the suffix, or is one of the words. -/
structure ReadsByMark (cs : List Char) : Prop where
  fits : ∀ n, DigitString (Text.trim cs) n → FitsInt n → ∃ i : Int32, ofText? cs = some (.int i) ∧ i.toInt = n
  large : ∀ n, DigitString (Text.trim cs) n → ¬FitsInt n → ofText? cs = none
  float : ∀ x, ofText? cs = some (.float x) → MarksFloat (Text.trim cs)

/-- **What digit strings are read as.** A text is read by its marks exactly if it is no digit string out of the
range of integers. Those are read as the nearest float, though nothing marks them as one. -/
theorem digitStrings_read (cs : List Char) :
    (ReadsByMark cs ↔ ∀ n, DigitString (Text.trim cs) n → FitsInt n) ∧
      ∀ n, DigitString (Text.trim cs) n → ¬FitsInt n →
        ofText? cs = some (.float (.ofInteger n)) ∧ ¬MarksFloat (Text.trim cs) := by
  have hlarge : ∀ n, DigitString (Text.trim cs) n → ¬FitsInt n → ofText? cs = some (.float (.ofInteger n)) := by
    intro n h hfits
    rw [ofText?_digitString h, if_neg hfits]
  refine ⟨⟨fun hreads n h => ?_, fun hall => ?_⟩, fun n h hfits => ⟨hlarge n h hfits, h.not_marksFloat⟩⟩
  · by_contra hfits
    have hnone := hreads.large n h hfits
    rw [hlarge n h hfits] at hnone
    cases hnone
  · refine ⟨fun n h hfits => ?_, fun n h hfits => absurd (hall n h) hfits, fun x hx => ?_⟩
    · rw [ofText?_digitString h, if_pos hfits]
      exact ⟨_, rfl, Int32.toInt_ofInt_of_le hfits.1 hfits.2⟩
    · rcases marked_or_large hx with hmark | ⟨n, h, hfits⟩
      · exact hmark
      · exact absurd (hall n h) hfits

/-- The first number above the integers is read as a float, and so is the first below. -/
theorem not_readsByMark_large :
    ¬ReadsByMark "2147483648".toList ∧
      ofText? "2147483648".toList = some (.float ⟨0x4f000000⟩) ∧
      ofText? "2147483647".toList = some (.int 2147483647) ∧
      ofText? "-2147483648".toList = some (.int (-2147483648)) ∧
      ofText? "-2147483649".toList = some (.float ⟨0xcf000000⟩) := by
  have hread : ofText? "2147483648".toList = some (.float ⟨0x4f000000⟩) := by decide +kernel
  refine ⟨fun hreads => ?_, hread, by decide +kernel⟩
  have hdigits : Digits "2147483648".toList := ⟨by decide, by simp⟩
  have htrim : Text.trim "2147483648".toList = "2147483648".toList := by decide +kernel
  have hdigitString : DigitString (Text.trim "2147483648".toList) 2147483648 := by
    rw [htrim]
    exact .unsigned hdigits
  have hnone := hreads.large 2147483648 hdigitString (by decide)
  rw [hread] at hnone
  cases hnone

end Value
end CogMachine
