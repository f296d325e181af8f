import CogMachine.Bytecode.Program
import CogMachine.Proofs.Literals

/-!
# Texts on one line

A listing puts texts into lines. A text is unbroken if it makes one line when a newline is put behind it. The
text of an opcode is, whatever its operand: a listing quotes the strings in it.

- `Text.lines_joined_append`: the lines of texts that were each ended by a newline, unbroken or not.
- `Opcode.unbroken_text`: the texts of opcodes.
- `Program.lines_join_line`: the lines of a listing are its instructions, one each.
-/

namespace CogMachine

namespace Text

variable {cs before after : List Char}

/-! ## Pieces -/

/-- **Pieces:** the lines that a text makes when a newline is put behind it. -/
def pieces (cs : List Char) : List (List Char) := (splitFields (· == '\n') cs).map dropReturn

theorem splitFields_ne_nil (isSeparator : Char → Bool) (cs : List Char) :
    splitFields isSeparator cs ≠ [] := by
  cases cs with
  | nil => simp [splitFields]
  | cons c cs =>
      rw [splitFields]
      split
      · simp
      · split <;> simp

/-- A text is cut on both sides of a separator. -/
theorem splitFields_append_cons {isSeparator : Char → Bool} {c : Char} (hc : isSeparator c = true)
    (before after : List Char) : splitFields isSeparator (before ++ c :: after) =
      splitFields isSeparator before ++ splitFields isSeparator after := by
  induction before with
  | nil => simp [splitFields, hc]
  | cons d before ih =>
      rw [List.cons_append, splitFields, splitFields, ih]
      split
      · rfl
      · cases hfields : splitFields isSeparator before with
        | nil => exact absurd hfields (splitFields_ne_nil isSeparator before)
        | cons field fields => rfl

/-- The lines before a newline are pieces, and the text behind it is read by itself. -/
theorem lines_append (before after : List Char) :
    lines (before ++ '\n' :: after) = pieces before ++ lines after := by
  have hne := splitFields_ne_nil (· == '\n') after
  unfold lines pieces
  rw [splitFields_append_cons rfl]
  simp only [List.dropLast_append_of_ne_nil hne, List.getLast?_append_of_ne_nil _ hne, List.map_append]
  split
  · rfl
  · rfl
  · rw [List.append_assoc]

/-- **Ended texts** come apart into their pieces. -/
theorem lines_joined_append (texts : List (List Char)) (after : List Char) :
    lines (joined texts ++ after) = texts.flatMap pieces ++ lines after := by
  induction texts with
  | nil => rfl
  | cons text texts ih =>
      have hfirst : joined (text :: texts) ++ after = text ++ '\n' :: (joined texts ++ after) := by
        simp [joined]
      rw [hfirst, lines_append, ih, List.flatMap_cons, List.append_assoc]

/-- There is a piece more than there are newlines. -/
theorem length_pieces (cs : List Char) : (pieces cs).length = cs.count '\n' + 1 := by
  unfold pieces
  rw [List.length_map]
  induction cs with
  | nil => rfl
  | cons c cs ih =>
      rw [splitFields, List.count_cons]
      by_cases hc : (c == '\n') = true
      · rw [if_pos hc, if_pos hc, List.length_cons, ih]
      · rw [if_neg hc, if_neg hc]
        cases hfields : splitFields (· == '\n') cs with
        | nil => exact absurd hfields (splitFields_ne_nil _ cs)
        | cons field fields =>
            rw [hfields] at ih
            exact ih

theorem pieces_of_notMem (h : '\n' ∉ cs) : pieces cs = [dropReturn cs] := by
  have hfalse : ∀ c ∈ cs, (c == '\n') = false := by
    intro c hc
    rw [beq_eq_false_iff_ne]
    rintro rfl
    exact h hc
  rw [pieces, splitFields_eq_singleton hfalse]
  rfl

/-! ## Unbroken texts -/

/-- **Unbroken:** no newline in a text, and no carriage return for the newline behind it to take away. -/
structure Unbroken (cs : List Char) : Prop where
  newline : '\n' ∉ cs
  last : cs.getLast? ≠ some '\r'

/-- Whatever has no newline may stand in front. -/
theorem Unbroken.append (hbefore : '\n' ∉ before) (h : Unbroken after) (hne : after ≠ []) :
    Unbroken (before ++ after) where
  newline := by simp [hbefore, h.newline]
  last := by
    rw [List.getLast?_append_of_ne_nil _ hne]
    exact h.last

theorem Unbroken.cons {c : Char} (h : Unbroken cs) (hnewline : c ≠ '\n') (hreturn : c ≠ '\r') :
    Unbroken (c :: cs) where
  newline := by simp [hnewline.symm, h.newline]
  last := by
    cases cs with
    | nil => simpa using hreturn
    | cons d ds =>
        rw [List.getLast?_cons_cons]
        exact h.last

theorem unbroken_of_isWordChar (h : ∀ c ∈ cs, isWordChar c = true) : Unbroken cs where
  newline hc := (isWordChar_cases (h _ hc)).2.2.2 rfl
  last hc := by cases (isWordChar_cases (h _ (List.mem_of_getLast? hc))).1

theorem unbroken_digitsOfNat (n : Nat) : Unbroken (digitsOfNat n) :=
  unbroken_of_isWordChar fun _ => isWordChar_digitsOfNat

theorem newline_notMem_hexOfNat (n : Nat) : '\n' ∉ hexOfNat n := by
  have hdigit : ∀ d : Nat, '\n' ≠ d.digitChar := fun d => (Nat.digitChar_ne '\n' (by decide)).symm
  unfold hexOfNat
  induction n using Nat.strongRecOn with
  | ind n ih =>
      rw [Nat.toDigits_eq_if (by decide)]
      split
      · simp [hdigit]
      · rename_i hlarge
        simpa [hdigit] using ih (n / 16) (by omega)

/-- No character of a quoted string is a newline: that has an escape. -/
theorem newline_notMem_quoteChar (c : Char) : '\n' ∉ quoteChar c := by
  unfold quoteChar
  by_cases hnewline : c = '\n'
  · subst hnewline
    decide
  · split_ifs with hquote hslash hreturn htab hnull hpoint
    · decide
    · decide
    · decide
    · decide
    · decide
    · simpa using newline_notMem_hexOfNat c.toNat
    · simpa using Ne.symm hnewline

/-- **A quoted string is unbroken,** whatever is in it. -/
theorem unbroken_quote (cs : List Char) : Unbroken (quote cs) where
  newline := by
    simp only [quote, List.mem_cons, List.mem_append, List.mem_flatMap, List.not_mem_nil, or_false]
    rintro (hmem | ⟨c, -, hmem⟩ | hmem)
    · cases hmem
    · exact newline_notMem_quoteChar c hmem
    · cases hmem
  last := by
    rw [quote, ← List.cons_append, List.getLast?_concat]
    decide

end Text

/-! ## Literals and opcodes -/

open Text (Unbroken isWordChar)

namespace Value

/-- **Literals are unbroken,** strings among them. -/
theorem unbroken_literalChars (v : Value) : Unbroken v.literalChars := by
  by_cases hstring : ∃ s, v = string s
  · obtain ⟨s, rfl⟩ := hstring
    exact Text.unbroken_quote s.toList
  · have hv : ∀ s, v ≠ string s := fun s heq => hstring ⟨s, heq⟩
    exact Text.unbroken_of_isWordChar fun _ => isWordChar_literalChars hv

end Value

theorem VerbId.toList_text (v : VerbId) : v.text.toList = '#' :: Text.digitsOfInt v.number.toInt := by
  have hnumber : toString v.number = String.ofList (Text.digitsOfInt v.number.toInt) := by
    show toString v.number.toInt = _
    unfold Text.digitsOfInt Text.digitsOfNat
    cases v.number.toInt with
    | ofNat n =>
        rw [if_neg (by simp)]
        exact Nat.toString_eq_ofList_toDigits
    | negSucc n =>
        rw [if_pos (by simp)]
        show "-" ++ toString (n + 1) = _
        rw [Nat.toString_eq_ofList_toDigits, ← String.toList_inj]
        simp only [String.toList_append, String.toList_ofList]
        rfl
  show ("#" ++ toString v.number).toList = _
  rw [hnumber]
  simp only [String.toList_append, String.toList_ofList]
  rfl

/-- **Words of mnemonics** are of lower-case letters. -/
theorem Mnemonic.text_cases (m : Mnemonic) :
    m.text.toList ≠ [] ∧ m.text.toList.map Char.toLower = m.text.toList ∧
      ∀ c ∈ m.text.toList, Text.isWordChar c = true ∧ c ≠ ':' ∧ c ≠ '.' := by
  have hall : ∀ m ∈ all, m.text.toList ≠ [] ∧ m.text.toList.map Char.toLower = m.text.toList ∧
      m.text.toList.all (fun c => Text.isWordChar c && c != ':' && c != '.') = true := by
    decide
  obtain ⟨hne, hlower, hchars⟩ := hall m (mem_all m)
  refine ⟨hne, hlower, ?_⟩
  intro c hc
  have hkept := List.all_eq_true.1 hchars c hc
  simpa [and_assoc] using hkept

theorem Mnemonic.newline_notMem_text (m : Mnemonic) : '\n' ∉ m.text.toList := by
  obtain ⟨-, -, hword⟩ := m.text_cases
  exact fun hc => (Text.isWordChar_cases (hword _ hc).1).2.2.2 rfl

namespace Opcode

theorem toList_text (o : Opcode) : o.text.toList =
    o.mnemonic.text.toList ++ (o.operandText.elim [] fun operand => ' ' :: operand.toList) := by
  unfold text
  cases o.operandText with
  | none => simp
  | some operand =>
      show (o.mnemonic.text ++ " " ++ operand).toList = _
      simp [String.toList_append]

theorem unbroken_operandText {o : Opcode} {operand : String} (h : o.operandText = some operand) :
    Unbroken operand.toList := by
  cases o with
  | push v =>
      cases h
      rw [String.toList_ofList]
      exact v.unbroken_literalChars
  | memory op address | branch op address =>
      cases h
      rw [String.toList_ofList]
      exact Text.unbroken_digitsOfNat address
  | call keeps verb =>
      cases h
      rw [VerbId.toList_text]
      refine Text.unbroken_of_isWordChar fun c hc => ?_
      rcases List.mem_cons.1 hc with rfl | hc
      · rfl
      · exact Text.isWordChar_digitsOfInt hc
  | dup | ret | unary op | binary op => cases h

/-- **Opcodes are unbroken,** whatever their operands are. -/
theorem unbroken_text (o : Opcode) : Unbroken o.text.toList := by
  obtain ⟨hne, -, hword⟩ := o.mnemonic.text_cases
  rw [toList_text]
  cases hoperand : o.operandText with
  | none =>
      rw [Option.elim_none, List.append_nil]
      exact Text.unbroken_of_isWordChar fun c hc => (hword c hc).1
  | some operand =>
      have hunbroken := unbroken_operandText hoperand
      exact .append o.mnemonic.newline_notMem_text (hunbroken.cons (by decide) (by decide)) (by simp)

theorem text_ne_nil (o : Opcode) : o.text.toList ≠ [] := by
  rw [toList_text]
  simp [o.mnemonic.text_cases.1]

end Opcode

/-! ## Listed instructions -/

namespace Instruction

/-- The offset of an instruction as it is listed. -/
def offsetText (i : Instruction) : List Char :=
  List.replicate (6 - (Text.digitsOfNat i.offset).length) ' ' ++ Text.digitsOfNat i.offset

/-- **Listed:** the offset of an instruction, and its text. -/
def listed (i : Instruction) : List Char := i.offsetText ++ ':' :: ' ' :: i.opcode.text.toList

theorem toList_line (i : Instruction) : (Program.line i).toList = i.listed ++ ['\n'] := by
  simp [Program.line, listed, offsetText, String.toList_append]

theorem offsetText_cases (i : Instruction) {c : Char} (h : c ∈ i.offsetText) :
    c = ' ' ∨ c.isDigit = true := by
  rcases List.mem_append.1 h with h | h
  · exact .inl (List.eq_of_mem_replicate h)
  · exact .inr (Text.isDigit_of_mem_digitsOfNat h)

theorem unbroken_listed (i : Instruction) : Unbroken i.listed := by
  have hoffset : '\n' ∉ i.offsetText := fun hc => by
    rcases i.offsetText_cases hc with hc | hc <;> cases hc
  have hlisted : i.listed = (i.offsetText ++ [':', ' ']) ++ i.opcode.text.toList := by
    simp [listed]
  rw [hlisted]
  exact .append (by simp [hoffset]) i.opcode.unbroken_text i.opcode.text_ne_nil

end Instruction

namespace Program

theorem toList_join_line (is : List Instruction) :
    (String.join (is.map line)).toList = Text.joined (is.map Instruction.listed) := by
  rw [String.toList_join, List.flatMap_map, Text.joined, List.flatMap_map]
  simp only [Instruction.toList_line]

/-- **The lines of a listing** are its instructions, one each. -/
theorem lines_join_line (is : List Instruction) :
    Text.lines (String.join (is.map line)).toList = is.map Instruction.listed := by
  have hunbroken : ∀ text ∈ is.map Instruction.listed, Unbroken text := by
    intro text htext
    obtain ⟨i, -, rfl⟩ := List.mem_map.1 htext
    exact i.unbroken_listed
  rw [toList_join_line]
  exact Text.lines_joined (fun text htext => (hunbroken text htext).newline)
    fun text htext => (hunbroken text htext).last

end Program
end CogMachine
