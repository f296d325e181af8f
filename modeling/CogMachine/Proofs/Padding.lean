import CogMachine.Proofs.Source
import CogMachine.Proofs.Texts

/-!
# What a line says

A line of source says what is left of it without its comment and its outer blanks; a line that says nothing
is skipped. Blanks around a closed text and a comment behind it do not count.

- `Assembly.said`, and `linesOf_eq`: the lines of a source are those that say something, with their numbers.
- `Text.Padded`: a text with blanks around it and perhaps a comment behind it. `said_of_padded`: it says the
  text.
- `linesOf_split`: the lines of a source before and after one that says something.
-/

namespace CogMachine

namespace Text

variable {cs before after line : List Char}

/-! ## Blanks and comments -/

/-- Blanks in a line. -/
def Blanks (cs : List Char) : Prop := ∀ c ∈ cs, isBlank c = true ∧ c ≠ '\n'

/-- A comment, or nothing. -/
def Remark (cs : List Char) : Prop := cs = [] ∨ ∃ text, '\n' ∉ text ∧ cs = ';' :: text

theorem Blanks.nil : Blanks [] := by simp [Blanks]

theorem Blanks.isBlank (h : Blanks cs) : ∀ c ∈ cs, Text.isBlank c = true := fun c hc => (h c hc).1

theorem closed_of_isBlank (h : ∀ c ∈ cs, isBlank c = true) : Closed cs :=
  closed_of_forall fun c hc => ne_of_isBlank (h c hc)

theorem Blanks.closed (h : Blanks cs) : Closed cs := closed_of_isBlank h.isBlank

theorem trim_blanks_append (h : ∀ c ∈ before, isBlank c = true) (cs : List Char) :
    trim (before ++ cs) = trim cs := by
  induction before with
  | nil => rfl
  | cons c before ih =>
      rw [List.forall_mem_cons] at h
      rw [List.cons_append, trim_cons_blank h.1, ih h.2]

theorem trimEnd_append_blanks (h : ∀ c ∈ after, isBlank c = true) (cs : List Char) :
    trimEnd (cs ++ after) = trimEnd cs := by
  have hafter : ∀ c ∈ after.reverse, isBlank c = true := fun c hc => h c (List.mem_reverse.1 hc)
  rw [trimEnd, trimEnd, List.reverse_append, List.dropWhile_append_of_pos hafter]

theorem trim_append_blanks (h : ∀ c ∈ after, isBlank c = true) (cs : List Char) :
    trim (cs ++ after) = trim cs := by
  have hstart : trimStart (cs ++ after) =
      if (trimStart cs).isEmpty then [] else trimStart cs ++ after := by
    unfold trimStart
    rw [List.dropWhile_append, List.dropWhile_eq_nil_iff.2 h]
  rw [trim, trim, hstart]
  split
  · rename_i hempty
    rw [List.isEmpty_iff.1 hempty]
  · exact trimEnd_append_blanks h _

theorem Remark.dropComment_eq (h : Remark cs) : dropComment cs = [] := by
  rcases h with rfl | ⟨text, -, rfl⟩
  · rfl
  · rfl

theorem Remark.newline (h : Remark cs) : '\n' ∉ cs := by
  rcases h with rfl | ⟨text, htext, rfl⟩
  · nofun
  · simpa using htext

theorem Blanks.newline (h : Blanks cs) : '\n' ∉ cs := fun hc => (h _ hc).2 rfl

/-- **A piece of a line:** it is closed, and there is no end of a line in it. -/
structure Piece (cs : List Char) : Prop where
  closed : Closed cs
  newline : '\n' ∉ cs

theorem Piece.append (h : Piece before) (h' : Piece after) : Piece (before ++ after) where
  closed := h.closed.append h'.closed
  newline := by simp [h.newline, h'.newline]

theorem Blanks.piece (h : Blanks cs) : Piece cs := ⟨h.closed, h.newline⟩

theorem piece_of_forall (h : ∀ c ∈ cs, c ∉ ['\n', ';', '"']) : Piece cs := by
  simp only [List.mem_cons, List.not_mem_nil, or_false, not_or] at h
  exact ⟨closed_of_forall fun c hc => (h c hc).2, fun hc => (h _ hc).1 rfl⟩

/-- Blanks between two words. -/
structure Gap (cs : List Char) : Prop where
  blanks : Blanks cs
  nonempty : cs ≠ []

/-- A gap ends the first word. -/
theorem Gap.splitWord (h : Gap cs) (hword : ∀ c ∈ before, isBlank c = false) (after : List Char) :
    Text.splitWord (before ++ (cs ++ after)) = (before, cs ++ after) := by
  cases cs with
  | nil => exact absurd rfl h.nonempty
  | cons c cs => exact splitWord_append hword (h.blanks c List.mem_cons_self).1 _

/-- No blank at the start of the first word, and none at the end of the last. -/
theorem Trimmed.append (h : Trimmed before) (hbefore : before ≠ []) (h' : Trimmed after)
    (hafter : after ≠ []) (between : List Char) : Trimmed (before ++ (between ++ after)) where
  head c hc := by
    rw [List.head?_append_of_ne_nil _ hbefore] at hc
    exact h.head c hc
  last c hc := by
    rw [← List.append_assoc, List.getLast?_append_of_ne_nil _ hafter] at hc
    exact h'.last c hc

/-- Blanks in front of a trimmed text do not count. -/
theorem Trimmed.trim_append (h : Trimmed cs) (hbefore : Blanks before) : trim (before ++ cs) = cs := by
  rw [trim_blanks_append hbefore.isBlank, h.trim_eq]

/-- **A text with blanks around it,** and perhaps a comment at the end of the line. -/
def Padded (cs line : List Char) : Prop :=
  ∃ before after remark, Blanks before ∧ Blanks after ∧ Remark remark ∧
    line = before ++ (cs ++ (after ++ remark))

theorem Padded.newline (h : Padded cs line) (hcs : '\n' ∉ cs) : '\n' ∉ line := by
  obtain ⟨before, after, remark, hbefore, hafter, hremark, rfl⟩ := h
  simp [hbefore.newline, hcs, hafter.newline, hremark.newline]

end Text

namespace Assembly

open Text (Piece Trimmed)

variable {cs line : List Char}

/-! ## Names -/

theorem ne_nil_of_isName (h : isName cs = true) : cs ≠ [] := by
  rintro rfl
  cases h

theorem isBlank_of_isName (h : isName cs = true) : ∀ c ∈ cs, Text.isBlank c = false :=
  fun c hc => (isNameChar_cases (isNameChar_of_isName h c hc)).1

theorem colon_notMem_of_isName (h : isName cs = true) : ':' ∉ cs :=
  fun hc => absurd (by decide) (isNameChar_cases (isNameChar_of_isName h ':' hc)).2

theorem trimmed_of_isName (h : isName cs = true) : Trimmed cs :=
  Text.trimmed_of_forall (isBlank_of_isName h)

theorem piece_of_isName (h : isName cs = true) : Piece cs := by
  apply Text.piece_of_forall
  intro c hc hmem
  apply (isNameChar_cases (isNameChar_of_isName h c hc)).2
  simp only [List.mem_cons, List.not_mem_nil, or_false] at hmem ⊢
  rcases hmem with rfl | rfl | rfl <;> simp

/-! ## Lines -/

/-- **What a line says,** without its comment and its outer blanks. -/
def said (line : List Char) : List Char := Text.trim (Text.dropComment line)

/-- Blanks around a closed text do not count, nor does a comment behind it. -/
theorem said_of_padded (hcs : Text.Closed cs) (h : Text.Padded cs line) : said line = Text.trim cs := by
  obtain ⟨before, after, remark, hbefore, hafter, hremark, rfl⟩ := h
  rw [said, hbefore.closed, hcs, hafter.closed, hremark.dropComment_eq, List.append_nil,
    Text.trim_blanks_append hbefore.isBlank, Text.trim_append_blanks hafter.isBlank]

/-- The lines of some texts that say something, with numbers counted from the first. -/
def linesFrom (first : Nat) (texts : List (List Char)) : List Line :=
  (texts.zipIdx first).filterMap fun (cs, number) =>
    if (said cs).isEmpty then none else some ⟨number, said cs⟩

theorem linesOf_eq (source : String) : linesOf source = linesFrom 1 (Text.lines source.toList) := rfl

theorem linesFrom_cons (first : Nat) (cs : List Char) (texts : List (List Char)) :
    linesFrom first (cs :: texts) =
      (if (said cs).isEmpty then [] else [⟨first, said cs⟩]) ++ linesFrom (first + 1) texts := by
  unfold linesFrom
  rw [List.zipIdx_cons, List.filterMap_cons]
  split
  · rename_i h
    simp only [ite_eq_left_iff, reduceCtorEq, imp_false, Bool.not_eq_true, Bool.not_eq_false] at h
    rw [if_pos h]
    rfl
  · rename_i line h
    simp only [Option.ite_none_left_eq_some, Option.some.injEq] at h
    obtain ⟨hne, rfl⟩ := h
    rw [if_neg hne]
    rfl

theorem linesFrom_append (first : Nat) (texts more : List (List Char)) :
    linesFrom first (texts ++ more) = linesFrom first texts ++ linesFrom (first + texts.length) more := by
  unfold linesFrom
  rw [List.zipIdx_append, List.filterMap_append]

theorem number_of_mem_linesFrom {first : Nat} {texts : List (List Char)} {l : Line}
    (h : l ∈ linesFrom first texts) : first ≤ l.number ∧ l.number < first + texts.length := by
  obtain ⟨⟨cs, number⟩, hmem, hline⟩ := List.mem_filterMap.1 h
  obtain ⟨hge, hlt, -⟩ := List.mem_zipIdx hmem
  simp only [Option.ite_none_left_eq_some, Option.some.injEq] at hline
  obtain ⟨-, rfl⟩ := hline
  exact ⟨hge, hlt⟩

/-- **The lines before and after one** that says something. -/
theorem linesOf_split {source : String} {n : Nat} (h : (Text.lines source.toList)[n]? = some line)
    (hne : said line ≠ []) : ∃ later, linesOf source =
      (linesOf source).filter (·.number ≤ n) ++ ⟨n + 1, said line⟩ :: later := by
  obtain ⟨hlt, rfl⟩ := List.getElem?_eq_some_iff.1 h
  have hcut : Text.lines source.toList =
      (Text.lines source.toList).take n ++ (Text.lines source.toList)[n] ::
        (Text.lines source.toList).drop (n + 1) := by
    rw [List.getElem_cons_drop, List.take_append_drop]
  generalize (Text.lines source.toList)[n] = line at hcut hne
  have hlength : ((Text.lines source.toList).take n).length = n := by
    rw [List.length_take]
    exact Nat.min_eq_left (Nat.le_of_lt hlt)
  generalize (Text.lines source.toList).take n = before at hcut hlength
  generalize (Text.lines source.toList).drop (n + 1) = after at hcut
  rw [linesOf_eq, hcut, linesFrom_append, linesFrom_cons, if_neg (by simpa using hne), hlength,
    List.filter_append, Nat.add_comm 1 n]
  have hbefore : (linesFrom 1 before).filter (·.number ≤ n) = linesFrom 1 before := by
    rw [List.filter_eq_self]
    intro l hl
    have hnumber := number_of_mem_linesFrom hl
    exact decide_eq_true (by omega)
  have hafter : ([(⟨n + 1, said line⟩ : Line)] ++ linesFrom (n + 1 + 1) after).filter
      (·.number ≤ n) = [] := by
    rw [List.filter_eq_nil_iff]
    intro l hl
    rw [decide_eq_true_eq]
    rcases List.mem_append.1 hl with hl | hl
    · rw [List.mem_singleton.1 hl]
      exact Nat.not_succ_le_self n
    · have hnumber := number_of_mem_linesFrom hl
      omega
  rw [hbefore, hafter, List.append_nil]
  exact ⟨_, rfl⟩

/-- The lines of a source that is one line. -/
theorem linesOf_single (hnewline : '\n' ∉ line) (hne : said line ≠ []) :
    linesOf (String.ofList line) = [⟨1, said line⟩] := by
  have hline : line ≠ [] := by
    rintro rfl
    exact hne rfl
  have hpieces : Text.splitFields (· == '\n') line = [line] := by
    apply Text.splitFields_eq_singleton
    intro c hc
    rw [beq_eq_false_iff_ne]
    rintro rfl
    exact hnewline hc
  have hlines : Text.lines line = [line] := by
    cases line with
    | nil => exact absurd rfl hline
    | cons c cs =>
        unfold Text.lines
        rw [hpieces]
        rfl
  rw [linesOf_eq, String.toList_ofList, hlines, linesFrom_cons, if_neg (by simpa using hne)]
  rfl

end Assembly
end CogMachine
