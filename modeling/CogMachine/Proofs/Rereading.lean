import CogMachine.Bytecode.Opcode
import CogMachine.Proofs.Attempt
import CogMachine.Proofs.Literals
import CogMachine.Proofs.Rounding

/-!
# Literals that are listed and read again

Whatever a script can write as a literal, a listing writes in its own way, and not all of it is read as the
same value again. Three things get lost: infinite floats, whose word ends in the letter that marks a float;
strings with a character for which scripts have no escape; and the sign of a NaN.

- `Value.reread?` tells what the listed form of a value is read as, and `Value.ofText?_literalChars_eq`
  shows it, for every value.
- `Value.Garbled` are the values that do not come back, among those that can be written at all.
- `reads_listed`: a literal that was read is read again from its listing, unless it is garbled there.
- `not_reads_listed`: one literal for each way of getting lost.
-/

namespace CogMachine

/-! ## Strings -/

namespace Text

/-- Characters that are not listable are listed by an escape that scripts lack. -/
theorem quoteChar_of_not_listable {c : Char} (h : isListable c = false) :
    ∃ e rest, quoteChar c = '\\' :: e :: rest ∧ escape? e = none := by
  have hself : quoteChar c ≠ [c] := by
    intro hself
    simp [isListable, hself] at h
  have hshort : c ∉ ['"', '\\', '\n', '\t'] := by
    intro hmem
    rw [isListable, List.contains_iff_mem.2 hmem, Bool.or_true] at h
    cases h
  simp only [List.mem_cons, List.not_mem_nil, or_false, not_or] at hshort
  obtain ⟨hquote, hslash, hnewline, htab⟩ := hshort
  unfold quoteChar at hself ⊢
  simp only [if_neg hquote, if_neg hslash, if_neg hnewline, if_neg htab] at hself ⊢
  by_cases hreturn : c = '\r'
  · exact ⟨'r', [], if_pos hreturn, by decide⟩
  · by_cases hnull : c.toNat = 0
    · exact ⟨'0', [], by simp [hreturn, hnull], by decide⟩
    · by_cases hpoint : needsCodePoint c = true
      · exact ⟨'u', '\x7b' :: (hexOfNat c.toNat ++ ['\x7d']), by simp [hreturn, hnull, hpoint], by decide⟩
      · simp [hreturn, hnull, hpoint] at hself

/-- **A string is refused** if one of its characters is not listable. -/
theorem unquote?_quoted_eq_none {cs : List Char} (h : ∃ c ∈ cs, isListable c = false) :
    unquote? (cs.flatMap quoteChar ++ ['"']) = none := by
  induction cs with
  | nil =>
      obtain ⟨c, hc, -⟩ := h
      cases hc
  | cons c cs ih =>
      rw [List.flatMap_cons, List.append_assoc]
      cases hc : isListable c with
      | false =>
          obtain ⟨e, rest, heq, he⟩ := quoteChar_of_not_listable hc
          rw [heq, List.cons_append, List.cons_append, unquote?, he, Option.bind_none]
      | true =>
          have hlater : ∃ d ∈ cs, isListable d = false := by
            obtain ⟨d, hd, hfalse⟩ := h
            rcases List.mem_cons.1 hd with rfl | hd
            · rw [hc] at hfalse
              cases hfalse
            · exact ⟨d, hd, hfalse⟩
          rcases quoteChar_cases hc with ⟨hself, hquote, hslash, -⟩ | ⟨e, hescape, he, -⟩
          · rw [hself, List.singleton_append, unquote?_plain hquote hslash, ih hlater]
            rfl
          · rw [hescape, List.cons_append, List.singleton_append, unquote?_escape he, ih hlater]
            rfl

end Text

/-! ## Singles -/

namespace Single

variable {x : Single}

/-- The NaN that scripts write with a minus sign. -/
def negativeNan : Single := .ofMagnitude true nan.magnitude

/-- **What a text keeps** of a single: a NaN loses its sign and its payload. -/
def kept (x : Single) : Single := if x.isNaN then nan else x

theorem single_of_isNaN (l : Layout) (hx : x.isNaN = true) : l.single x = ['N', 'a', 'N'] := by
  rw [Layout.single, if_pos hx]

theorem ofText?_single_kept (l : Layout) (x : Single) : ofText? (l.single x) = some x.kept := by
  cases hx : x.isNaN with
  | true =>
      rw [single_of_isNaN l hx, kept, if_pos hx]
      decide +kernel
  | false => rw [ofText?_single l hx, kept, if_neg (by simp [hx])]

theorem kept_eq_self : x.kept = x ↔ (x.isNaN = true → x = nan) := by
  unfold kept
  cases x.isNaN with
  | true => simp [eq_comm]
  | false => simp

/-! ## Which NaNs are read -/

theorem toMagnitude_le (d : Decimal) : d.toMagnitude ≤ infinityMagnitude := by
  unfold Decimal.toMagnitude
  split
  · exact Nat.zero_le _
  · split
    · exact Nat.le_refl _
    · split
      · exact Nat.zero_le _
      · exact Nat.min_le_right _ _

/-- **The NaNs that are read** are quiet, with either sign and no payload. -/
theorem nan_of_ofText? {cs : List Char} (h : ofText? cs = some x) (hx : x.isNaN = true) :
    x = nan ∨ x = negativeNan := by
  rw [ofText?] at h
  generalize Text.splitSign cs = signed at h
  obtain ⟨negative, body⟩ := signed
  obtain ⟨m, hm, rfl⟩ := Option.map_eq_some_iff.1 h
  have hcases : m ≤ infinityMagnitude ∨ m = nan.magnitude := by
    rcases (Option.orElse_eq_some _ _ _).1 hm with hdecimal | ⟨-, hword⟩
    · obtain ⟨d, -, rfl⟩ := Option.map_eq_some_iff.1 hdecimal
      exact .inl (toMagnitude_le d)
    · unfold magnitudeOfWord? at hword
      simp only at hword
      split at hword
      · cases hword
        exact .inr rfl
      · split at hword
        · cases hword
          exact .inl (Nat.le_refl _)
        · cases hword
  rcases hcases with hle | rfl
  · rw [isNaN_ofMagnitude negative hle] at hx
    cases hx
  · cases negative with
    | true => exact .inr rfl
    | false => exact .inl rfl

end Single

namespace Value

open Text (isListable quote)

variable {cs : List Char} {v : Value}

/-- The singles in a value. -/
def singles : Value → List Single
  | float x => [x]
  | vector v => [v.x, v.y, v.z]
  | void | int _ | bool _ | string _ | handle _ _ => []

/-- A literal is one of the words, or it was read by its form. -/
theorem word_or_body_of_ofText? (h : ofText? cs = some v) :
    v = void ∨ (∃ b, v = bool b) ∨ bodyOfText? (Text.trim cs) = some v := by
  unfold ofText? at h
  simp only at h
  split at h
  · cases h
  · split at h
    · exact .inl (Option.some.inj h).symm
    · split at h
      · exact .inr (.inl ⟨true, (Option.some.inj h).symm⟩)
      · split at h
        · exact .inr (.inl ⟨false, (Option.some.inj h).symm⟩)
        · exact .inr (.inr h)

/-- The singles in a literal were read as singles. -/
theorem exists_of_mem_singles {x : Single} (h : ofText? cs = some v) (hx : x ∈ v.singles) :
    ∃ text, Single.ofText? text = some x := by
  rcases word_or_body_of_ofText? h with rfl | ⟨b, rfl⟩ | hbody
  · cases hx
  · cases hx
  unfold bodyOfText? at hbody
  split at hbody
  · obtain ⟨s, -, rfl⟩ := Option.map_eq_some_iff.1 hbody
    cases hx
  · split at hbody
    · obtain ⟨w, hw, rfl⟩ := Option.map_eq_some_iff.1 hbody
      unfold vectorOfText? at hw
      split at hw
      · rename_i hfields
        cases hw
        obtain ⟨field, -, hfield⟩ := Attempt.exists_of_mem_mapM_some hfields hx
        exact ⟨_, hfield⟩
      · cases hw
    · split at hbody
      · obtain ⟨kind, -, hkind⟩ := Option.bind_eq_some_iff.1 hbody
        obtain ⟨id, -, rfl⟩ := Option.map_eq_some_iff.1 hkind
        cases hx
      · unfold numberOfText? at hbody
        split at hbody
        · cases hbody
          cases hx
        · obtain ⟨y, hy, rfl⟩ := Option.map_eq_some_iff.1 hbody
          obtain rfl := List.mem_singleton.1 hx
          exact ⟨_, hy⟩

theorem kept_eq_self_of_read {x : Single} (h : ofText? cs = some v) (hx : x ∈ v.singles) :
    x.kept = x ↔ x ≠ .negativeNan := by
  rw [Single.kept_eq_self]
  constructor
  · rintro hkept rfl
    cases hkept (by decide)
  · intro hne hnan
    obtain ⟨text, htext⟩ := exists_of_mem_singles h hx
    exact (Single.nan_of_ofText? htext hnan).resolve_right hne

/-! ## What listed literals are read as -/

/-- **Reread:** what the listed form of a value is read as. -/
def reread? : Value → Option Value
  | float x => if x.magnitude = Single.infinityMagnitude then none else some (float x.kept)
  | vector v => some (vector ⟨v.x.kept, v.y.kept, v.z.kept⟩)
  | string s => if s.toList.all isListable then some (string s) else none
  | void => some void
  | int n => some (int n)
  | bool b => some (bool b)
  | handle kind id => some (handle kind id)

/-- The word for an infinite float is cut short when it is read: its last letter is taken for the mark of a
float. -/
theorem ofText?_infinite {x : Single} (hx : x.isNaN = false) (hinf : x.magnitude = Single.infinityMagnitude) :
    ofText? (Layout.source.single x) = none := by
  rw [Layout.single, if_neg (by simp [hx]), Layout.magnitude, if_pos hinf]
  cases x.negative with
  | true | false => decide +kernel

theorem ofText?_literalChars_eq (v : Value) : ofText? v.literalChars = v.reread? := by
  cases v with
  | void => exact ofText?_literalChars (v := void) trivial
  | int n => exact ofText?_int n
  | bool b => exact ofText?_literalChars (v := bool b) trivial
  | handle kind id => exact ofText?_handle kind id
  | vector v =>
      exact ofText?_vector (Single.ofText?_single_kept _ _) (Single.ofText?_single_kept _ _)
        (Single.ofText?_single_kept _ _)
  | string s =>
      simp only [literalChars, reread?]
      by_cases hs : s.toList.all isListable = true
      · rw [if_pos hs]
        exact ofText?_string (List.all_eq_true.1 hs)
      · have hlost : ∃ c ∈ s.toList, isListable c = false := by
          simpa using hs
        have hquoted : Text.Trimmed (quote s.toList) := by
          constructor
          · rintro c ⟨⟩
            rfl
          · intro c hc
            rw [quote, ← List.cons_append, List.getLast?_concat] at hc
            cases hc
            rfl
        rw [if_neg hs, ofText?_eq_body hquoted (by simp [quote]) (by simp [quote]), quote, bodyOfText?,
          Text.unquote?_quoted_eq_none hlost]
        rfl
  | float x =>
      simp only [literalChars, reread?]
      cases hnan : x.isNaN with
      | true =>
          have hover : x.magnitude ≠ Single.infinityMagnitude := by
            intro heq
            simp [Single.isNaN, heq] at hnan
          rw [if_neg hover, Single.single_of_isNaN _ hnan, Single.kept, if_pos hnan]
          decide +kernel
      | false =>
          cases hfinite : x.isFinite with
          | true =>
              have hover := Nat.ne_of_lt (Single.isFinite_iff.1 hfinite)
              rw [if_neg hover, ofText?_float hfinite, Single.kept, if_neg (by simp [hnan])]
          | false =>
              have hinf := Single.magnitude_eq_of_not_isFinite hnan hfinite
              rw [if_pos hinf, ofText?_infinite hnan hinf]

/-- **Garbled** in a listing: an infinite float, a NaN with a minus sign, a string with a character that
scripts have no escape for. -/
def Garbled : Value → Prop
  | float x => x.magnitude = Single.infinityMagnitude ∨ x = .negativeNan
  | vector v => v.x = .negativeNan ∨ v.y = .negativeNan ∨ v.z = .negativeNan
  | string s => ∃ c ∈ s.toList, isListable c = false
  | void | int _ | bool _ | handle _ _ => False

/-- A literal comes back from a listing unless it is garbled there. -/
theorem reread?_eq_self (h : ofText? cs = some v) : v.reread? = some v ↔ ¬ v.Garbled := by
  have hkept : ∀ x ∈ v.singles, x.kept = x ↔ x ≠ .negativeNan := fun _ => kept_eq_self_of_read h
  cases v with
  | void | int n | bool b | handle kind id => simp [reread?, Garbled]
  | float x =>
      have hx := hkept x List.mem_cons_self
      simp [reread?, Garbled, hx]
  | vector v =>
      simp only [singles, List.forall_mem_cons] at hkept
      obtain ⟨hx, hy, hz, -⟩ := hkept
      obtain ⟨x, y, z⟩ := v
      simp only [reread?, Garbled, Option.some.injEq, vector.injEq, Vector3.mk.injEq, hx, hy, hz, not_or]
  | string s => simp [reread?, Garbled]

end Value

/-- **Literals that are listed and read again.** The listed form of a literal is the operand behind its
mnemonic. Reading it gives the same value, bit for bit, unless the value is garbled; a garbled one is not
read at all, or it is a NaN that has lost its sign. -/
theorem reads_listed {cs : List Char} {v : Value} (h : Value.ofText? cs = some v) :
    ∃ operand, (Opcode.push v).text.toList = "push ".toList ++ operand ∧
      Value.ofText? operand = v.reread? ∧ (Value.ofText? operand = some v ↔ ¬ v.Garbled) := by
  have htext : (Opcode.push v).text.toList = "push ".toList ++ v.literalChars := by
    show ("push" ++ " " ++ String.ofList v.literalChars).toList = _
    simp only [String.toList_append, String.toList_ofList, List.append_assoc]
    rfl
  refine ⟨v.literalChars, htext, v.ofText?_literalChars_eq, ?_⟩
  rw [v.ofText?_literalChars_eq]
  exact Value.reread?_eq_self h

/-- A float that is written with a mark comes back, and its listed form has a point instead. -/
theorem reads_listed_three : Value.ofText? "3f".toList = some (.float ⟨0x40400000⟩) ∧
    Value.ofText? "3.0".toList = some (.float ⟨0x40400000⟩) := by
  have h : Value.ofText? "3f".toList = some (.float ⟨0x40400000⟩) := by decide +kernel
  obtain ⟨operand, htext, -, hiff⟩ := reads_listed h
  have hlisted : (Opcode.push (.float ⟨0x40400000⟩)).text.toList = "push ".toList ++ "3.0".toList := by
    decide +kernel
  obtain rfl := List.append_cancel_left (htext.symm.trans hlisted)
  refine ⟨h, hiff.2 ?_⟩
  unfold Value.Garbled
  decide

/-- **Lost in a listing:** a float beyond the largest, a carriage return, and the sign of a NaN. -/
theorem not_reads_listed :
    (Value.ofText? "1e39".toList = some (.float (.infinity false)) ∧
      (Opcode.push (.float (.infinity false))).text = "push inf" ∧ Value.ofText? "inf".toList = none) ∧
    (Value.ofText? "\"\r\"".toList = some (.string "\r") ∧
      (Opcode.push (.string "\r")).text = "push \"\\r\"" ∧ Value.ofText? "\"\\r\"".toList = none) ∧
    Value.ofText? "-nan".toList = some (.float .negativeNan) ∧
      (Opcode.push (.float .negativeNan)).text = "push NaN" ∧
      Value.ofText? "NaN".toList = some (.float .nan) ∧ Single.nan ≠ .negativeNan := by
  decide +kernel

end CogMachine
