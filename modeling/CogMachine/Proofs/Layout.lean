import CogMachine.Proofs.Arranging
import CogMachine.Proofs.Closing

/-!
# Layout

The layout of a source does not matter: blank lines and comments come and go, lines are indented, declarations
and messages move about, and the script stays the same.

- `Edit` are the changes of layout, told by the lines of the source.
- `said_append_comment` and `said_trim`: what a line says does not change. The first needs a line that leaves
  no string open, and lines that assemble are like that.
- `Edit.arranged` is the step, and `arranged_of_edits` any number of them: the source is arranged as before.
- `layout_does_not_matter` puts it together with `assemble_arranged`.
-/

namespace CogMachine

namespace Text

variable {cs after : List Char}

/-! ## Comments and blanks behind a line -/

/-- Only a comment leaves nothing of a text. -/
theorem dropComment_append_comment (h : dropComment cs = []) (text : List Char) :
    dropComment (cs ++ ';' :: text) = [] := by
  cases cs with
  | nil => rfl
  | cons c cs =>
      rw [dropComment, dropComment.outside] at h
      split at h
      · rename_i hsemicolon
        rw [hsemicolon]
        rfl
      · split at h <;> cases h

/-- Blanks at the end are kept, or they belong to a comment. -/
theorem dropComment_states_append_blanks (h : ∀ c ∈ after, isBlank c = true) (cs : List Char) :
    (dropComment.outside (cs ++ after) = dropComment.outside cs ++ after ∨
      dropComment.outside (cs ++ after) = dropComment.outside cs) ∧
    (dropComment.inside (cs ++ after) = dropComment.inside cs ++ after ∨
      dropComment.inside (cs ++ after) = dropComment.inside cs) ∧
    (dropComment.escaped (cs ++ after) = dropComment.escaped cs ++ after ∨
      dropComment.escaped (cs ++ after) = dropComment.escaped cs) := by
  have hinside : ∀ {blanks : List Char}, (∀ c ∈ blanks, isBlank c = true) →
      dropComment.inside blanks = blanks := by
    intro blanks hblanks
    induction blanks with
    | nil => rfl
    | cons c blanks ih =>
        rw [List.forall_mem_cons] at hblanks
        have hslash : c ≠ '\\' := by
          rintro rfl
          cases hblanks.1
        rw [dropComment.inside, if_neg hslash, if_neg (ne_of_isBlank hblanks.1).2, ih hblanks.2]
  induction cs with
  | nil =>
      refine ⟨.inl (closed_of_isBlank h).dropComment_eq, .inl (hinside h), .inl ?_⟩
      cases after with
      | nil => rfl
      | cons c after =>
          rw [List.forall_mem_cons] at h
          exact congrArg (c :: ·) (hinside h.2)
  | cons c cs ih =>
      have hcons : ∀ {kept kept' : List Char}, (kept' = kept ++ after ∨ kept' = kept) →
          c :: kept' = (c :: kept) ++ after ∨ c :: kept' = c :: kept := by
        rintro kept kept' (rfl | rfl)
        · exact .inl rfl
        · exact .inr rfl
      obtain ⟨houtside, hin, hescaped⟩ := ih
      rw [List.cons_append, dropComment.outside, dropComment.outside, dropComment.inside,
        dropComment.inside, dropComment.escaped, dropComment.escaped]
      refine ⟨?_, ?_, hcons hin⟩
      · split
        · exact .inr rfl
        · split
          · exact hcons hin
          · exact hcons houtside
      · split
        · exact hcons hescaped
        · split
          · exact hcons houtside
          · exact hcons hin

end Text

namespace Assembly

open Text (Closed Padded)

variable {line line' text : List Char} {lines lines' : List (List Char)}

/-! ## What lines say -/

/-- **A comment behind a line** that leaves no string open does not change what it says. -/
theorem said_append_comment (h : Closed (said line)) (text : List Char) :
    said (line ++ ';' :: text) = said line := by
  have hclosed : Closed (Text.dropComment line) := Text.closed_of_trim h
  obtain ⟨rest, hrest⟩ := Text.dropComment_prefix_self line
  have hnil : Text.dropComment rest = [] := by
    have hkept := hclosed rest
    rw [hrest] at hkept
    exact List.self_eq_append_right.1 hkept
  unfold said
  conv_lhs => rw [← hrest, List.append_assoc, hclosed, Text.dropComment_append_comment hnil,
    List.append_nil]

/-- **Blanks around a line** do not change what it says. -/
theorem said_trim (line : List Char) : said (Text.trim line) = said line := by
  obtain ⟨before, after, hbefore, hafter, heq⟩ := Text.exists_trim line
  unfold said
  conv_rhs => rw [heq, Text.closed_of_isBlank hbefore, Text.trim_blanks_append hbefore]
  rcases (Text.dropComment_states_append_blanks hafter (Text.trim line)).1 with hkept | hkept
  · show _ = Text.trim (Text.dropComment.outside _)
    rw [hkept, Text.trim_append_blanks hafter]
    rfl
  · show _ = Text.trim (Text.dropComment.outside _)
    rw [hkept]
    rfl

/-- A line of blanks, or a comment by itself, says nothing. -/
theorem said_idle (h : Padded [] line) : said line = [] := by
  rw [said_of_padded .nil h]
  rfl

/-- What lines say, of those that say anything. -/
def texts (lines : List (List Char)) : List (List Char) := (lines.map said).filter (!·.isEmpty)

theorem map_text_linesFrom (first : Nat) (lines : List (List Char)) :
    (linesFrom first lines).map Line.text = texts lines := by
  induction lines generalizing first with
  | nil => rfl
  | cons line lines ih =>
      rw [linesFrom_cons, List.map_append, ih, texts, texts, List.map_cons, List.filter_cons]
      cases hempty : (said line).isEmpty with
      | true => simp
      | false => simp

theorem texts_append (lines lines' : List (List Char)) : texts (lines ++ lines') = texts lines ++ texts lines' := by
  simp [texts]

theorem texts_cons_of_said (h : said line' = said line) (lines : List (List Char)) :
    texts (line' :: lines) = texts (line :: lines) := by
  simp [texts, h]

theorem texts_cons_idle (h : Padded [] line) (lines : List (List Char)) : texts (line :: lines) = texts lines := by
  simp [texts, said_idle h]

theorem closed_of_texts (h : ∀ text ∈ texts lines, Closed text) : ∀ line ∈ lines, Closed (said line) := by
  intro line hline
  cases hempty : (said line).isEmpty with
  | true =>
      rw [List.isEmpty_iff.1 hempty]
      exact .nil
  | false => exact h _ (List.mem_filter.2 ⟨List.mem_map.2 ⟨line, hline, rfl⟩, by simp [hempty]⟩)

/-! ## Edits -/

/-- **Changes of layout,** told by the lines of a source: a line that says nothing is inserted or deleted, a
comment is put behind a line, blanks at the ends of a line are changed, and declarations and messages are
moved, so that the declarations stay in their order and so do the lines that are no directives. -/
inductive Edit : List (List Char) → List (List Char) → Prop where
  | insert {before after : List (List Char)} {idle : List Char} (hidle : Padded [] idle) :
      Edit (before ++ after) (before ++ idle :: after)
  | delete {before after : List (List Char)} {idle : List Char} (hidle : Padded [] idle) :
      Edit (before ++ idle :: after) (before ++ after)
  | comment {before after : List (List Char)} {line text : List Char} :
      Edit (before ++ line :: after) (before ++ (line ++ ';' :: text) :: after)
  | blanks {before after : List (List Char)} {line line' : List Char}
      (htrim : Text.trim line' = Text.trim line) : Edit (before ++ line :: after) (before ++ line' :: after)
  | move {lines lines' : List (List Char)} (hperm : lines.Perm lines')
      (hsymbols : lines.filter (fun line => isSymbol (said line)) =
        lines'.filter (fun line => isSymbol (said line)))
      (hcode : lines.filter (fun line => isCode (said line)) =
        lines'.filter (fun line => isCode (said line))) : Edit lines lines'

/-- Texts that are kept in order by the lines that say them. -/
theorem filter_texts {p : List Char → Bool}
    (h : lines.filter (fun line => p (said line)) = lines'.filter (fun line => p (said line))) :
    (texts lines).filter p = (texts lines').filter p := by
  have hview : ∀ lines, (texts lines).filter p =
      ((lines.filter fun line => p (said line)).map said).filter (!·.isEmpty) := by
    intro lines
    rw [texts, List.filter_comm, List.filter_map]
    rfl
  rw [hview, hview, h]

/-- **The step.** A change of layout leaves the texts arranged as they were. -/
theorem Edit.arranged (h : Edit lines lines') (hclosed : ∀ text ∈ texts lines, Closed text) :
    Arranged (texts lines) (texts lines') := by
  have heq : ∀ {ts ts' : List (List Char)}, ts' = ts → Arranged ts ts' := by
    intro ts ts' h
    rw [h]
    exact .refl ts
  cases h with
  | insert hidle =>
      apply heq
      rw [texts_append, texts_append, texts_cons_idle hidle]
  | delete hidle =>
      apply heq
      rw [texts_append, texts_append, texts_cons_idle hidle]
  | @comment before after line text =>
      have hline : Closed (said line) := closed_of_texts hclosed line (by simp)
      apply heq
      rw [texts_append, texts_append, texts_cons_of_said (said_append_comment hline text)]
  | @blanks before after line line' htrim =>
      have hsaid : said line' = said line := by rw [← said_trim, htrim, said_trim]
      apply heq
      rw [texts_append, texts_append, texts_cons_of_said hsaid]
  | move hperm hsymbols hcode =>
      exact ⟨(hperm.map said).filter _, filter_texts hsymbols, filter_texts hcode⟩

/-- **The run.** So does any number of changes. The texts stay the same ones, so they stay closed. -/
theorem arranged_of_edits (h : Relation.ReflTransGen Edit lines lines')
    (hclosed : ∀ text ∈ texts lines, Closed text) : Arranged (texts lines) (texts lines') := by
  induction h with
  | refl => exact .refl _
  | tail _ hstep ih =>
      exact ih.trans (hstep.arranged fun text htext => hclosed text (ih.perm.mem_iff.2 htext))

/-- **The layout of a source does not matter.** If a source assembles, then so does every source that changes
of layout make of it, and to the same script. No verb may have a quote in its name: a call of it would
leave a string open for the comment behind it. -/
theorem layout_does_not_matter {name source source' : String} {verbs : String → Option VerbId} {script : Script}
    (hverbs : ∀ verb id, verbs verb = some id → '"' ∉ verb.toList)
    (hedits : Relation.ReflTransGen Edit (Text.lines source.toList) (Text.lines source'.toList))
    (h : assemble name source verbs = .ok script) : assemble name source' verbs = .ok script := by
  refine assemble_arranged ?_ h
  rw [linesOf_eq, linesOf_eq, map_text_linesFrom, map_text_linesFrom]
  refine arranged_of_edits hedits fun text htext => ?_
  rw [← map_text_linesFrom 1, ← linesOf_eq] at htext
  obtain ⟨line, hline, rfl⟩ := List.mem_map.1 htext
  exact closed_of_assemble hverbs h hline

/-- A source with its declarations first. -/
def declaredFirst : String := ".symbol int x = 1\n.message go\nload x\ngo: push \"a;b\"\nret"

/-- The same one after some changes: the declarations have moved, and there is a blank line and a comment. -/
def declaredLater : String :=
  "\tload x; say \"it\n\n.symbol int x = 1\ngo: push \"a;b\"\nret\n.message go\n"

/-- Four changes lead from the one source to the other, so they assemble to the same script. -/
theorem layout_does_not_matter_declaredLater :
    assemble "demo" declaredLater (fun _ => none) = .ok
      { name := "demo"
        program := ⟨#[16, 0, 0, 0, 0, 1, 4, 3, 0, 0, 0, 97, 59, 98, 50]⟩
        symbols := ⟨[{ Symbol.ofType "x" .int 0 with default := .int 1 }]⟩
        exports := ⟨[("go", 5)]⟩ } := by
  let symbol := ".symbol int x = 1".toList
  let message := ".message go".toList
  let load := "load x".toList
  let code := ["go: push \"a;b\"".toList, "ret".toList]
  let rest := symbol :: (code ++ [message])
  let commented := load ++ ';' :: " say \"it".toList
  have hfirst : Text.lines declaredFirst.toList = symbol :: message :: load :: code := by decide +kernel
  have hlater : Text.lines declaredLater.toList = ('\t' :: commented) :: [] :: rest := by decide +kernel
  have hmoved : Edit (symbol :: message :: load :: code) (load :: rest) :=
    .move (by decide +kernel) (by decide +kernel) (by decide +kernel)
  have hcomment : Edit (load :: rest) (commented :: rest) := @Edit.comment [] _ _ _
  have hblanks : Edit (commented :: rest) (('\t' :: commented) :: rest) :=
    @Edit.blanks [] _ _ _ (by decide +kernel)
  have hinsert : Edit (('\t' :: commented) :: rest) (('\t' :: commented) :: [] :: rest) :=
    @Edit.insert ['\t' :: commented] _ _ ⟨[], [], [], .nil, .nil, .inl rfl, rfl⟩
  refine @layout_does_not_matter "demo" declaredFirst declaredLater (fun _ => none) _ (by simp) ?_
    (by decide +kernel)
  rw [hfirst, hlater]
  exact (((Relation.ReflTransGen.single hmoved).tail hcomment).tail hblanks).tail hinsert

end Assembly
end CogMachine
