import CogMachine.Assembly.Line
import Mathlib

/-!
# Cutting and joining texts

The readers cut texts at blanks, at separators and at line endings. Here each cut is told from the side
of a text that was put together: where the pieces hold no separator, cutting gives the pieces back.

- `Text.trim_eq_self`: a text without blanks at its ends is trimmed.
- `Text.splitAt?_append`, `Text.splitFields_append`, `Text.splitWord_append`: a first separator.
- `Text.lines_joined`: the lines of texts that were each ended by a newline.
- `Assembly.linesOf_joined`: the same for a source whose lines are clean.
-/

namespace CogMachine.Text

/-! ## Blanks -/

theorem isBlank_eq_false {c : Char} (hlow : 0x20 < c.toNat) (hhigh : c.toNat < 0x85) :
    isBlank c = false := by
  simp only [isBlank, blankRanges, inRanges]
  simp
  omega

theorem toNat_of_isAlphanum {c : Char} (h : c.isAlphanum = true) :
    0x30 ≤ c.toNat ∧ c.toNat ≤ 0x7a := by
  simp only [Char.isAlphanum, Char.isAlpha, Char.isUpper, Char.isLower, Char.isDigit,
    Bool.or_eq_true, Bool.and_eq_true, decide_eq_true_eq, ge_iff_le, UInt32.le_iff_toNat_le] at h
  have hval : c.toNat = c.val.toNat := rfl
  rw [hval]
  simp at h
  omega

theorem isBlank_of_isAlphanum {c : Char} (h : c.isAlphanum = true) : isBlank c = false := by
  have hrange := toNat_of_isAlphanum h
  exact isBlank_eq_false (by omega) (by omega)

variable {cs before after : List Char} {separator : Char}

/-- No blank at either end. -/
structure Trimmed (cs : List Char) : Prop where
  head : ∀ c, cs.head? = some c → isBlank c = false
  last : ∀ c, cs.getLast? = some c → isBlank c = false

theorem trimmed_of_forall (h : ∀ c ∈ cs, isBlank c = false) : Trimmed cs :=
  ⟨fun c hc => h c (List.mem_of_head? hc), fun c hc => h c (List.mem_of_getLast? hc)⟩

theorem dropWhile_eq_self {p : Char → Bool} (h : ∀ c, cs.head? = some c → p c = false) :
    cs.dropWhile p = cs := by
  cases cs with
  | nil => rfl
  | cons c cs =>
      rw [List.dropWhile_cons_of_neg]
      simpa using h c rfl

theorem Trimmed.trimEnd_eq (h : Trimmed cs) : trimEnd cs = cs := by
  rw [trimEnd, dropWhile_eq_self, List.reverse_reverse]
  rw [List.head?_reverse]
  exact h.last

/-- **A text without blanks at its ends** stays as it is. -/
theorem Trimmed.trim_eq (h : Trimmed cs) : trim cs = cs := by
  rw [trim, trimStart, dropWhile_eq_self h.head, h.trimEnd_eq]

/-- Blanks in front do not count. -/
theorem trim_cons_blank {c : Char} (hc : isBlank c = true) (cs : List Char) :
    trim (c :: cs) = trim cs := by
  rw [trim, trim, trimStart, trimStart, List.dropWhile_cons_of_pos hc]

theorem trimEnd_prefix_self (cs : List Char) : trimEnd cs <+: cs := by
  rw [trimEnd, ← List.reverse_suffix, List.reverse_reverse]
  exact List.dropWhile_suffix _

theorem trimmed_trim (cs : List Char) : Trimmed (trim cs) := by
  have hstart : ∀ c, (trimStart cs).head? = some c → isBlank c = false := by
    intro c hc
    have hne := List.head?_dropWhile_not isBlank cs
    rw [trimStart] at hc
    rw [hc] at hne
    exact hne
  constructor
  · intro c hc
    have hprefix : trim cs <+: trimStart cs := trimEnd_prefix_self _
    obtain ⟨rest, hrest⟩ := hprefix
    apply hstart
    rw [← hrest]
    cases ht : trim cs with
    | nil =>
        rw [ht] at hc
        cases hc
    | cons d ds =>
        rw [ht] at hc
        exact hc
  · intro c hc
    rw [trim, trimEnd, List.getLast?_reverse] at hc
    have hne := List.head?_dropWhile_not isBlank (trimStart cs).reverse
    rw [hc] at hne
    exact hne

/-! ## Separators -/

/-- A text is cut at the first separator. -/
theorem splitAt?_append (h : separator ∉ before) (after : List Char) :
    splitAt? separator (before ++ separator :: after) = some (before, after) := by
  have hbefore : ∀ c ∈ before, decide (c ≠ separator) = true := by
    intro c hc
    apply decide_eq_true
    rintro rfl
    exact h hc
  unfold splitAt?
  rw [List.dropWhile_append_of_pos hbefore, List.takeWhile_append_of_pos hbefore]
  simp

theorem splitAt?_eq_none (h : separator ∉ cs) : splitAt? separator cs = none := by
  have hcs : ∀ c ∈ cs, decide (c ≠ separator) = true := by
    intro c hc
    apply decide_eq_true
    rintro rfl
    exact h hc
  unfold splitAt?
  rw [← List.append_nil cs, List.dropWhile_append_of_pos hcs]
  rfl

/-- What a first word is cut from. -/
theorem splitWord_append {blank : Char} (h : ∀ c ∈ before, isBlank c = false)
    (hblank : isBlank blank = true) (after : List Char) :
    splitWord (before ++ blank :: after) = (before, blank :: after) := by
  have hbefore : ∀ c ∈ before, (!isBlank c) = true := by
    intro c hc
    rw [h c hc]
    rfl
  rw [splitWord, List.takeWhile_append_of_pos hbefore, List.dropWhile_append_of_pos hbefore]
  simp [hblank]

theorem splitWord_eq_self (h : ∀ c ∈ cs, isBlank c = false) : splitWord cs = (cs, []) := by
  have hcs : ∀ c ∈ cs, (!isBlank c) = true := by
    intro c hc
    rw [h c hc]
    rfl
  rw [splitWord, List.takeWhile_eq_self_iff.2 hcs, List.dropWhile_eq_nil_iff.2 hcs]

section Fields

variable {isSeparator : Char → Bool}

theorem splitFields_eq_singleton (h : ∀ c ∈ cs, isSeparator c = false) :
    splitFields isSeparator cs = [cs] := by
  induction cs with
  | nil => rfl
  | cons c cs ih =>
      rw [List.forall_mem_cons] at h
      rw [splitFields, if_neg (by simp [h.1]), ih h.2]

/-- The first field of a text. -/
theorem splitFields_append (h : ∀ c ∈ before, isSeparator c = false) {c : Char}
    (hc : isSeparator c = true) (after : List Char) :
    splitFields isSeparator (before ++ c :: after) = before :: splitFields isSeparator after := by
  induction before with
  | nil => rw [List.nil_append, splitFields, if_pos hc]
  | cons d before ih =>
      rw [List.forall_mem_cons] at h
      rw [List.cons_append, splitFields, if_neg (by simp [h.1]), ih h.2]

/-- Fields hold no separator. -/
theorem notMem_of_mem_splitFields {field : List Char} (h : field ∈ splitFields isSeparator cs) :
    ∀ c ∈ field, isSeparator c = false := by
  induction cs generalizing field with
  | nil =>
      obtain rfl := List.mem_singleton.1 h
      nofun
  | cons c cs ih =>
      rw [splitFields] at h
      split at h
      · rcases List.mem_cons.1 h with rfl | h
        · nofun
        · exact ih h
      · rename_i hc
        have hfalse : isSeparator c = false := Bool.eq_false_of_not_eq_true hc
        split at h
        · rename_i first rest hfields
          rcases List.mem_cons.1 h with rfl | h
          · rw [List.forall_mem_cons]
            exact ⟨hfalse, ih (hfields ▸ List.mem_cons_self)⟩
          · exact ih (hfields ▸ List.mem_cons_of_mem _ h)
        · obtain rfl := List.mem_singleton.1 h
          rw [List.forall_mem_singleton]
          exact hfalse

end Fields

/-! ## Lines -/

/-- Texts, each ended by a newline. -/
def joined (texts : List (List Char)) : List Char := texts.flatMap (· ++ ['\n'])

theorem splitFields_joined {texts : List (List Char)} (h : ∀ t ∈ texts, '\n' ∉ t) :
    splitFields (· == '\n') (joined texts) = texts ++ [[]] := by
  induction texts with
  | nil => rfl
  | cons t texts ih =>
      rw [List.forall_mem_cons] at h
      have ht : ∀ c ∈ t, (c == '\n') = false := by
        intro c hc
        rw [beq_eq_false_iff_ne]
        rintro rfl
        exact h.1 hc
      have hcut : joined (t :: texts) = t ++ '\n' :: joined texts := by simp [joined]
      rw [hcut, splitFields_append ht rfl, ih h.2]
      rfl

/-- A trimmed text does not end in a carriage return, which is a blank. -/
theorem Trimmed.last_ne_return (h : Trimmed cs) : cs.getLast? ≠ some '\r' := by
  intro hlast
  cases h.last '\r' hlast

/-- **Lines that were joined** come apart again. -/
theorem lines_joined {texts : List (List Char)} (hnewline : ∀ t ∈ texts, '\n' ∉ t)
    (hreturn : ∀ t ∈ texts, t.getLast? ≠ some '\r') : lines (joined texts) = texts := by
  have hreturns : texts.map dropReturn = texts := by
    have hkept : ∀ t ∈ texts, dropReturn t = t := fun t ht => if_neg (hreturn t ht)
    rw [List.map_congr_left hkept, List.map_id']
  unfold lines
  simp only [splitFields_joined hnewline, List.dropLast_concat, List.getLast?_concat, hreturns]

/-- Lines hold no newline. -/
theorem newline_notMem_of_mem_lines {line : List Char} (h : line ∈ lines cs) : '\n' ∉ line := by
  have hpiece : ∃ piece ∈ splitFields (· == '\n') cs, ∀ c ∈ line, c ∈ piece := by
    have hended : ∀ l ∈ (splitFields (· == '\n') cs).dropLast.map dropReturn,
        ∃ piece ∈ splitFields (· == '\n') cs, ∀ c ∈ l, c ∈ piece := by
      intro l hl
      obtain ⟨piece, hmem, rfl⟩ := List.mem_map.1 hl
      refine ⟨piece, List.mem_of_mem_dropLast hmem, fun c hc => ?_⟩
      unfold dropReturn at hc
      split at hc
      · exact List.mem_of_mem_dropLast hc
      · exact hc
    unfold lines at h
    simp only at h
    split at h
    · exact hended line h
    · exact hended line h
    · rename_i last _ hlast
      rcases List.mem_append.1 h with h | h
      · exact hended line h
      · obtain rfl := List.mem_singleton.1 h
        exact ⟨line, List.mem_of_getLast? hlast, fun c hc => hc⟩
  obtain ⟨piece, hmem, hsub⟩ := hpiece
  intro hnewline
  have hfalse := notMem_of_mem_splitFields hmem '\n' (hsub _ hnewline)
  cases hfalse

/-! ## Comments -/

/-- What is left in front of a comment has no comment, wherever it is cut off. -/
theorem dropComment_prefix_states (cs p : List Char) :
    (p <+: dropComment.outside cs → dropComment.outside p = p) ∧
      (p <+: dropComment.inside cs → dropComment.inside p = p) ∧
      (p <+: dropComment.escaped cs → dropComment.escaped p = p) := by
  induction cs generalizing p with
  | nil =>
      refine ⟨?_, ?_, ?_⟩ <;>
      · intro h
        rw [List.prefix_nil.1 h]
        rfl
  | cons c cs ih =>
      cases p with
      | nil => exact ⟨fun _ => rfl, fun _ => rfl, fun _ => rfl⟩
      | cons d p =>
          obtain ⟨houtside, hinside, hescaped⟩ := ih p
          refine ⟨?_, ?_, ?_⟩
          · intro h
            rw [dropComment.outside] at h ⊢
            split at h
            · cases List.prefix_nil.1 h
            · rename_i hsemicolon
              split at h
              · rename_i hquote
                obtain ⟨rfl, hrest⟩ := List.cons_prefix_cons.1 h
                rw [if_neg hsemicolon, if_pos hquote, hinside hrest]
              · rename_i hquote
                obtain ⟨rfl, hrest⟩ := List.cons_prefix_cons.1 h
                rw [if_neg hsemicolon, if_neg hquote, houtside hrest]
          · intro h
            rw [dropComment.inside] at h ⊢
            split at h
            · rename_i hslash
              obtain ⟨rfl, hrest⟩ := List.cons_prefix_cons.1 h
              rw [if_pos hslash, hescaped hrest]
            · rename_i hslash
              split at h
              · rename_i hquote
                obtain ⟨rfl, hrest⟩ := List.cons_prefix_cons.1 h
                rw [if_neg hslash, if_pos hquote, houtside hrest]
              · rename_i hquote
                obtain ⟨rfl, hrest⟩ := List.cons_prefix_cons.1 h
                rw [if_neg hslash, if_neg hquote, hinside hrest]
          · intro h
            rw [dropComment.escaped] at h ⊢
            obtain ⟨rfl, hrest⟩ := List.cons_prefix_cons.1 h
            rw [hinside hrest]

theorem dropComment_prefix_eq (h : before <+: dropComment cs) : dropComment before = before :=
  (dropComment_prefix_states cs before).1 h

/-- What is no quote and no semicolon is kept. -/
theorem dropComment_append (h : ∀ c ∈ before, c ≠ ';' ∧ c ≠ '"') (after : List Char) :
    dropComment (before ++ after) = before ++ dropComment after := by
  induction before with
  | nil => rfl
  | cons c before ih =>
      rw [List.forall_mem_cons] at h
      rw [List.cons_append, dropComment, dropComment.outside, if_neg h.1.1, if_neg h.1.2]
      exact congrArg (c :: ·) (ih h.2)

/-- A blank starts neither a comment nor a string. -/
theorem ne_of_isBlank {c : Char} (h : isBlank c = true) : c ≠ ';' ∧ c ≠ '"' := by
  constructor
  · rintro rfl
    cases h
  · rintro rfl
    cases h

/-- **Closed texts:** no comment starts in them and no string is left open, so that what comes after is read
by itself. -/
def Closed (cs : List Char) : Prop := ∀ after, dropComment (cs ++ after) = cs ++ dropComment after

theorem closed_of_forall (h : ∀ c ∈ cs, c ≠ ';' ∧ c ≠ '"') : Closed cs := dropComment_append h

theorem Closed.nil : Closed [] := fun _ => rfl

theorem Closed.append {cs' : List Char} (h : Closed cs) (h' : Closed cs') : Closed (cs ++ cs') := by
  intro after
  rw [List.append_assoc, h, h', List.append_assoc]

theorem Closed.dropComment_eq (h : Closed cs) : dropComment cs = cs := by
  have hkept := h []
  rw [List.append_nil] at hkept
  rw [hkept]
  exact List.append_nil cs

theorem dropComment_eq_self (h : ∀ c ∈ cs, c ≠ ';' ∧ c ≠ '"') : dropComment cs = cs :=
  (closed_of_forall h).dropComment_eq

theorem dropComment_prefix_self (cs : List Char) : dropComment cs <+: cs := by
  have hstates : dropComment.outside cs <+: cs ∧ dropComment.inside cs <+: cs ∧
      dropComment.escaped cs <+: cs := by
    induction cs with
    | nil => exact ⟨List.prefix_rfl, List.prefix_rfl, List.prefix_rfl⟩
    | cons c cs ih =>
        obtain ⟨houtside, hinside, hescaped⟩ := ih
        rw [dropComment.outside, dropComment.inside, dropComment.escaped]
        refine ⟨?_, ?_, List.cons_prefix_cons.2 ⟨rfl, hinside⟩⟩
        · split
          · exact List.nil_prefix
          · split
            · exact List.cons_prefix_cons.2 ⟨rfl, hinside⟩
            · exact List.cons_prefix_cons.2 ⟨rfl, houtside⟩
        · split
          · exact List.cons_prefix_cons.2 ⟨rfl, hescaped⟩
          · split
            · exact List.cons_prefix_cons.2 ⟨rfl, houtside⟩
            · exact List.cons_prefix_cons.2 ⟨rfl, hinside⟩
  exact hstates.1

/-- Trimming leaves no comment where there is none. -/
theorem dropComment_trim (h : dropComment cs = cs) : dropComment (trim cs) = trim cs := by
  have hblanks : ∀ c ∈ cs.takeWhile isBlank, c ≠ ';' ∧ c ≠ '"' := fun c hc =>
    ne_of_isBlank (List.mem_takeWhile_imp hc)
  have hstart : dropComment (trimStart cs) = trimStart cs := by
    rw [← List.takeWhile_append_dropWhile (p := isBlank) (l := cs), dropComment_append hblanks] at h
    exact List.append_cancel_left h
  have hkept : trim cs <+: dropComment (trimStart cs) := by
    rw [hstart]
    exact trimEnd_prefix_self _
  exact dropComment_prefix_eq hkept

theorem mem_of_mem_trim {c : Char} (h : c ∈ trim cs) : c ∈ cs :=
  (List.dropWhile_suffix isBlank).mem ((trimEnd_prefix_self _).mem h)

end CogMachine.Text

namespace CogMachine.Assembly

/-! ## Names -/

section Names

variable {cs word : List Char}

theorem isNameChar_of_isName (h : isName cs = true) : ∀ c ∈ cs, isNameChar c = true := by
  cases cs with
  | nil => cases h
  | cons c cs =>
      obtain ⟨hstart, hrest⟩ := Bool.and_eq_true_iff.1 h
      rw [List.forall_mem_cons]
      refine ⟨?_, List.all_eq_true.1 hrest⟩
      unfold isNameStart at hstart
      unfold isNameChar Char.isAlphanum
      rcases Bool.or_eq_true_iff.1 hstart with halpha | hunder
      · rw [halpha]
        rfl
      · rw [hunder, Bool.or_true]

/-- Nothing in a name ends it. -/
theorem isNameChar_cases {c : Char} (h : isNameChar c = true) :
    Text.isBlank c = false ∧ c ∉ ['\n', ';', '"', ':', '.', '='] := by
  refine ⟨?_, ?_⟩
  · rcases Bool.or_eq_true_iff.1 h with halphanum | hunder
    · exact Text.isBlank_of_isAlphanum halphanum
    · rw [beq_iff_eq.1 hunder]
      rfl
  · intro hmem
    simp only [List.mem_cons, List.not_mem_nil, or_false] at hmem
    rcases hmem with rfl | rfl | rfl | rfl | rfl | rfl <;> cases h

/-- A name holds no blank. -/
theorem isName_eq_false {blank : Char} (hblank : Text.isBlank blank = true) (h : blank ∈ cs) :
    isName cs = false := by
  by_contra hname
  have hchar := isNameChar_of_isName (Bool.eq_true_of_not_eq_false hname) blank h
  rw [(isNameChar_cases hchar).1] at hblank
  cases hblank

/-- A colon behind the first word ends no label. -/
theorem splitLabel?_eq_none {blank : Char} (hword : ':' ∉ word) (hblank : Text.isBlank blank = true)
    (rest : List Char) : splitLabel? (word ++ blank :: rest) = none := by
  have hcolon : ∀ c ∈ word, decide (c ≠ ':') = true := by
    intro c hc
    apply decide_eq_true
    rintro rfl
    exact hword hc
  have hkept : blank ≠ ':' := by
    rintro rfl
    cases hblank
  have hmem : blank ∈ (word ++ blank :: rest).takeWhile (· ≠ ':') := by
    rw [List.takeWhile_append_of_pos hcolon]
    simp [hkept]
  rw [splitLabel?, Option.filter_eq_none_iff]
  intro cut hcut
  unfold Text.splitAt? at hcut
  split at hcut
  · cases hcut
  · cases hcut
    show isName (List.takeWhile (· ≠ ':') _) ≠ true
    rw [isName_eq_false hblank hmem]
    decide

end Names

/-! ## Clean lines -/

/-- **Clean:** a line that is kept as it is. -/
structure Clean (cs : List Char) : Prop where
  nonempty : cs ≠ []
  newline : '\n' ∉ cs
  trimmed : Text.Trimmed cs
  comment : Text.dropComment cs = cs

/-- **Clean lines** are the lines of the source that they are joined to. -/
theorem linesOf_joined {texts : List (List Char)} (h : ∀ t ∈ texts, Clean t) :
    linesOf (String.ofList (Text.joined texts)) =
      (texts.zipIdx 1).map fun (t, number) => ⟨number, t⟩ := by
  unfold linesOf
  rw [String.toList_ofList, Text.lines_joined (fun t ht => (h t ht).newline)
    fun t ht => (h t ht).trimmed.last_ne_return, ← List.filterMap_eq_map]
  apply List.filterMap_congr
  rintro ⟨t, number⟩ hmem
  have ht := h t (List.fst_mem_of_mem_zipIdx hmem)
  simp [ht.comment, ht.trimmed.trim_eq, ht.nonempty]

/-- **The lines of a source** are clean. -/
theorem clean_of_mem_linesOf {source : String} {line : Line} (h : line ∈ linesOf source) :
    Clean line.text := by
  unfold linesOf at h
  obtain ⟨⟨cs, number⟩, hmem, hline⟩ := List.mem_filterMap.1 h
  have hlines : cs ∈ Text.lines source.toList := List.fst_mem_of_mem_zipIdx hmem
  simp only at hline
  split at hline
  · cases hline
  · rename_i hne
    cases hline
    refine ⟨fun hnil => hne (List.isEmpty_iff.2 hnil), ?_, Text.trimmed_trim _, ?_⟩
    · intro hnewline
      apply Text.newline_notMem_of_mem_lines hlines
      exact (Text.dropComment_prefix_self cs).mem (Text.mem_of_mem_trim hnewline)
    · exact Text.dropComment_trim (Text.dropComment_prefix_eq List.prefix_rfl)

end CogMachine.Assembly
