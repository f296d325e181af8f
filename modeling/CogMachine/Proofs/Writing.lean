import CogMachine.Proofs.Literals
import CogMachine.Proofs.Padding
import CogMachine.Proofs.Redrafting

/-!
# Strings in a script

Every string can be written in a script, as the operand of a `push` or as the default of a symbol, whatever is
in it: semicolons, colons, quotes, backslashes, the word `local`.

- `PushText` and `SymbolText` are the texts of such lines, which may be padded with blanks and a comment.
- `PushText.takeLine` and `SymbolText.declareSymbol` are the step: what is done with the line, whatever was
  read before it.
- `strings_can_be_written` is about whole sources: one that has such a line, and one that is nothing else.
-/

namespace CogMachine
namespace Assembly

open Text (Blanks Closed Gap Padded Piece Trimmed written)

variable {s x : String} {label : Option String} {isLocal : Bool}
variable {body text tail line : List Char} {symbols t t' : SymbolTable} {verbs : String → Option VerbId}

/-! ## Texts -/

theorem trimmed_written (cs : List Char) : Trimmed (written cs) := (Text.clean_written cs).trimmed

theorem piece_written (cs : List Char) : Piece (written cs) :=
  ⟨Text.closed_of_unquote? (Text.unquote?_written cs), (Text.clean_written cs).newline⟩

/-- What starts with a name is no directive. -/
theorem directive?_of_isName {cs : List Char} (h : isName cs = true) (rest : List Char) :
    directive? (cs ++ rest) = none := by
  cases cs with
  | nil => cases h
  | cons c cs =>
      rw [List.cons_append]
      unfold directive?
      split
      · rename_i rest heq
        rw [List.cons.injEq] at heq
        obtain ⟨rfl, -⟩ := heq
        cases isNameChar_of_isName h '.' List.mem_cons_self
      · rfl

theorem splitLabel?_gap {word gap : List Char} (hword : ':' ∉ word) (hgap : Gap gap) (rest : List Char) :
    splitLabel? (word ++ (gap ++ rest)) = none := by
  cases gap with
  | nil => exact absurd rfl hgap.nonempty
  | cons c gap => exact splitLabel?_eq_none hword (hgap.blanks c List.mem_cons_self).1 _

/-! The words around a string are names. -/

theorem isName_push : isName "push".toList = true := by decide +kernel

theorem isName_symbol : isName "symbol".toList = true := by decide +kernel

theorem isName_string : isName "string".toList = true := by decide +kernel

theorem isName_local : isName "local".toList = true := by decide +kernel

/-- **Texts that push a string,** without a label or with one in front. -/
inductive PushText (s : String) : Option String → List Char → Prop where
  | plain {gap : List Char} (hgap : Gap gap) :
      PushText s none ("push".toList ++ (gap ++ written s.toList))
  | labelled {name : String} {between body : List Char} (hname : isName name.toList = true)
      (hbetween : Blanks between) (hbody : PushText s none body) :
      PushText s (some name) (name.toList ++ (':' :: between ++ body))

/-- An equals sign with a string behind it, and the word `local` for a private symbol. -/
inductive DefaultText (s : String) : Bool → List Char → Prop where
  | shared {between : List Char} (hbetween : Blanks between) :
      DefaultText s false (['='] ++ (between ++ written s.toList))
  | own {tail gap : List Char} (htail : DefaultText s false tail) (hgap : Gap gap) :
      DefaultText s true (tail ++ (gap ++ "local".toList))

/-- **Texts that declare a symbol** with a string for its default. -/
inductive SymbolText (s x : String) (isLocal : Bool) : List Char → Prop where
  | intro {gap₁ gap₂ gap₃ tail : List Char} (hname : isName x.toList = true) (hgap₁ : Gap gap₁)
      (hgap₂ : Gap gap₂) (hgap₃ : Gap gap₃) (htail : DefaultText s isLocal tail) :
      SymbolText s x isLocal (".symbol".toList ++ (gap₁ ++ ("string".toList ++ (gap₂ ++
        (x.toList ++ (gap₃ ++ tail))))))

namespace PushText

theorem piece (h : PushText s label text) : Piece text := by
  induction h with
  | plain hgap =>
      exact (piece_of_isName isName_push).append (hgap.blanks.piece.append (piece_written _))
  | labelled hname hbetween _ ih =>
      have hcolon : Piece [':'] := Text.piece_of_forall (by simp)
      exact (piece_of_isName hname).append ((hcolon.append hbetween.piece).append ih)

theorem ne_nil (h : PushText s label text) : text ≠ [] := by
  cases h <;> simp

theorem trimmed (h : PushText s label text) : Trimmed text := by
  induction h with
  | plain _ =>
      exact (trimmed_of_isName isName_push).append (ne_nil_of_isName isName_push)
        (trimmed_written _) (by simp [written]) _
  | labelled hname _ hbody ih =>
      exact (trimmed_of_isName hname).append (ne_nil_of_isName hname) ih hbody.ne_nil _

/-- The mnemonic and the operand of a text without a label. -/
theorem mnemonic?_and_operand (h : PushText s none body) :
    mnemonic? body = some .push ∧ operand body = written s.toList := by
  cases h with
  | plain hgap =>
      unfold mnemonic? operand
      rw [hgap.splitWord (isBlank_of_isName isName_push)]
      refine ⟨?_, (trimmed_written _).trim_append hgap.blanks⟩
      show Mnemonic.ofText? (String.ofList ("push".toList.map Char.toLower)) = _
      decide +kernel

/-- **Its statement:** no colon in the string ends a label. -/
theorem exists_statement (h : PushText s label text) :
    ∃ body, PushText s none body ∧ ∀ number, statement? ⟨number, text⟩ = some ⟨label, body⟩ := by
  cases h with
  | @plain gap hgap =>
      refine ⟨_, .plain hgap, fun number => ?_⟩
      simp only [statement?, directive?_of_isName isName_push,
        splitLabel?_gap (colon_notMem_of_isName isName_push) hgap]
  | @labelled name between body hname hbetween hbody =>
      refine ⟨body, hbody, fun number => ?_⟩
      have hlabel : splitLabel? (name.toList ++ (':' :: between ++ body)) =
          some (name.toList, between ++ body) := by
        rw [splitLabel?, List.cons_append,
          Text.splitAt?_append (colon_notMem_of_isName hname), Option.filter_some, if_pos hname]
      simp only [statement?, directive?_of_isName hname, hlabel, String.ofList_toList,
        hbody.trimmed.trim_append hbetween]

end PushText

theorem said_push (h : PushText s label text) (hline : Padded text line) : said line = text := by
  rw [said_of_padded h.piece.closed hline, h.trimmed.trim_eq]

namespace DefaultText

theorem piece (h : DefaultText s isLocal tail) : Piece tail := by
  induction h with
  | shared hbetween =>
      exact (Text.piece_of_forall (by simp)).append (hbetween.piece.append (piece_written _))
  | own _ hgap ih =>
      exact ih.append (hgap.blanks.piece.append (piece_of_isName isName_local))

theorem ne_nil (h : DefaultText s isLocal tail) : tail ≠ [] := by
  induction h with
  | shared _ => simp
  | own _ _ ih => simp [ih]

theorem trimmed (h : DefaultText s isLocal tail) : Trimmed tail := by
  induction h with
  | shared _ =>
      exact (Text.trimmed_of_forall (by simp; decide)).append (by simp) (trimmed_written _)
        (by simp [written]) _
  | own htail _ ih =>
      exact ih.append htail.ne_nil (trimmed_of_isName isName_local)
        (ne_nil_of_isName isName_local) _

/-- A string ends in a quote. -/
theorem getLast? (h : DefaultText s false tail) : tail.getLast? = some '"' := by
  cases h with
  | shared _ =>
      rw [written, ← List.append_assoc, ← List.cons_append, ← List.append_assoc, List.getLast?_concat]

/-- The word `local` is found behind the string and not in it. -/
theorem exists_splitLocal (h : DefaultText s isLocal tail) :
    ∃ given, DefaultText s false given ∧ splitLocal tail = (given, isLocal) := by
  have hlast : "local".toList.getLast? = some 'l' := by decide +kernel
  cases h with
  | @shared between hbetween =>
      have hquote := (DefaultText.shared (s := s) hbetween).getLast?
      refine ⟨_, .shared hbetween, ?_⟩
      generalize ['='] ++ (between ++ written s.toList) = tail at hquote ⊢
      unfold splitLocal
      rw [if_neg, if_neg]
      · rw [Bool.and_eq_true, decide_eq_true_eq]
        rintro ⟨hword, -⟩
        rw [← hword, List.getLast?_append_of_ne_nil _ (ne_nil_of_isName isName_local), hlast] at hquote
        cases hquote
      · rintro rfl
        rw [hlast] at hquote
        cases hquote
  | @own tail gap htail hgap =>
      refine ⟨_, htail, ?_⟩
      have hhead : (tail ++ (gap ++ "local".toList)).take
          ((tail ++ (gap ++ "local".toList)).length - "local".toList.length) = tail ++ gap := by
        rw [← List.append_assoc, @List.length_append _ _ "local".toList, Nat.add_sub_cancel, List.take_left]
      have hblank : (tail ++ gap).getLast?.any Text.isBlank = true := by
        rw [List.getLast?_append_of_ne_nil _ hgap.nonempty, List.getLast?_eq_some_getLast hgap.nonempty,
          Option.any_some]
        exact (hgap.blanks _ (List.getLast_mem _)).1
      unfold splitLocal
      rw [if_neg]
      · simp only [hhead]
        rw [if_pos, Text.trimEnd_append_blanks hgap.blanks.isBlank, htail.trimmed.trimEnd_eq]
        rw [hblank, List.append_assoc]
        simp
      · intro hword
        have hlength := congrArg List.length hword
        have hpos := List.length_pos_iff.2 htail.ne_nil
        simp only [List.length_append] at hlength
        omega

theorem declaredDefault (h : DefaultText s false tail) (line : Nat) :
    declaredDefault line tail = .ok (some (.string s)) := by
  cases h with
  | shared hbetween =>
      rw [List.singleton_append, Assembly.declaredDefault]
      simp only [(trimmed_written _).trim_append hbetween, Value.ofText?_written]

end DefaultText

/-- The symbol that such a text declares. -/
def stringSymbol (x s : String) (isLocal : Bool) (address : Nat) : Symbol :=
  { Symbol.ofType x .string address with default := .string s, isLocal }

namespace SymbolText

theorem piece (h : SymbolText s x isLocal text) : Piece text := by
  cases h with
  | intro hname hgap₁ hgap₂ hgap₃ htail =>
      have hdot : Piece ['.'] := Text.piece_of_forall (by simp)
      have hkeyword : Piece ".symbol".toList := hdot.append (piece_of_isName isName_symbol)
      exact hkeyword.append (hgap₁.blanks.piece.append ((piece_of_isName isName_string).append
        (hgap₂.blanks.piece.append ((piece_of_isName hname).append
          (hgap₃.blanks.piece.append htail.piece)))))

theorem trimmed (h : SymbolText s x isLocal text) : Trimmed text := by
  cases h with
  | @intro gap₁ gap₂ gap₃ tail hname _ _ _ htail =>
      have hrest : ∀ before : List Char, (before ++ tail).getLast? = tail.getLast? :=
        fun before => List.getLast?_append_of_ne_nil before htail.ne_nil
      constructor
      · rintro c ⟨⟩
        rfl
      · intro c hc
        simp only [← List.append_assoc, hrest] at hc
        exact htail.trimmed.last c hc

/-- **Its declaration,** behind the keyword. The word `local` is found where it stands, and nowhere in the
string. -/
theorem exists_declareSymbol (h : SymbolText s x isLocal text) :
    ∃ rest, directive? text = some ("symbol".toList, rest) ∧
      ∀ t number, declareSymbol t number rest = t.insert (stringSymbol x s isLocal t.memorySize) := by
  cases h with
  | @intro gap₁ gap₂ gap₃ tail hname hgap₁ hgap₂ hgap₃ htail =>
      have hx : Trimmed (x.toList ++ (gap₃ ++ tail)) :=
        (trimmed_of_isName hname).append (ne_nil_of_isName hname) htail.trimmed htail.ne_nil _
      have htype : Trimmed ("string".toList ++ (gap₂ ++ (x.toList ++ (gap₃ ++ tail)))) :=
        (trimmed_of_isName isName_string).append (ne_nil_of_isName isName_string) hx
          (by simp [ne_nil_of_isName hname]) _
      obtain ⟨given, hgiven, hsplit⟩ := htail.exists_splitLocal
      refine ⟨_, congrArg some (hgap₁.splitWord (isBlank_of_isName isName_symbol) _), fun t number => ?_⟩
      unfold declareSymbol
      rw [htype.trim_append hgap₁.blanks, hgap₂.splitWord (isBlank_of_isName isName_string)]
      simp only [hx.trim_append hgap₂.blanks, hgap₃.splitWord (isBlank_of_isName hname),
        htail.trimmed.trim_append hgap₃.blanks, hname, hsplit, hgiven.declaredDefault]
      have hstring : ValueType.ofText? (String.ofList "string".toList) = some .string := by decide +kernel
      rw [hstring]
      rw [if_neg (by simp)]
      simp only [String.ofList_toList]
      rfl

end SymbolText

theorem said_symbol (h : SymbolText s x isLocal text) (hline : Padded text line) : said line = text := by
  rw [said_of_padded h.piece.closed hline, h.trimmed.trim_eq]

/-! ## Steps -/

/-- A draft at the start of a line, with the label of the line defined if it has one. -/
def Draft.startLine (d : Draft) (number : Nat) : Option String → Except AssemblyError Draft
  | none => .ok d
  | some name => d.define number name

namespace PushText

theorem instruction (h : PushText s none body) (d : Draft) (number : Nat) :
    instruction symbols verbs d number body = .ok (d.append (.push (.string s))) := by
  obtain ⟨hm, hoperand⟩ := h.mnemonic?_and_operand
  rw [instruction_eq, hm, hoperand]
  simp only [Opcode.bare?, Value.ofText?_written]

theorem denoted? (h : PushText s none body) (address? : String → Option Nat)
    (offset? : String → Option Nat) :
    denoted? address? verbs offset? body = some (.push (.string s)) := by
  obtain ⟨hm, hoperand⟩ := h.mnemonic?_and_operand
  rw [denoted?_eq, hm, hoperand]
  simp only [Value.ofText?_written, Option.map_some]

/-- **The step.** A line with such a text defines its label and appends the push of the string. -/
theorem takeLine (h : PushText s label text) (p : Progress) (number : Nat) :
    takeLine symbols verbs p ⟨number, text⟩ =
      (p.draft.startLine number label).map fun d =>
        { p with draft := d.append (.push (.string s)) } := by
  obtain ⟨body, hbody, hs⟩ := h.exists_statement
  rw [takeLine_of_statement? (hs number)]
  unfold takeStatement Draft.startLine
  cases label with
  | none => simp only [hbody.instruction]; rfl
  | some name =>
      simp only [hbody.instruction, List.isEmpty_iff, if_neg hbody.ne_nil]
      cases p.draft.define number name <;> rfl

end PushText

/-! ## Whole sources -/

section Sources

variable {name source : String} {script : Script} {n : Nat}

theorem PushText.emitted (h : PushText s label text) (hs : s.utf8ByteSize < wordLimit)
    (hline : Padded text line) (hraw : (Text.lines source.toList)[n]? = some line)
    (hassemble : assemble name source verbs = .ok script) :
    ∃ earlier later,
      script.program = .ofBytes ((earlier ++ .push (.string s) :: later).flatMap Opcode.encode) ∧
      earlier.length = (bodies (statements ((linesOf source).filter (·.number ≤ n)))).length ∧
      script.program.decode (extent earlier) = .ok ⟨.push (.string s), extent earlier,
        extent earlier + (Opcode.push (.string s)).encodedLength⟩ := by
  have hsaid := said_push h hline
  obtain ⟨os, hmeans, hprogram, -, -⟩ := emitted_of_assemble hassemble
  obtain ⟨rest, hlines⟩ := linesOf_split hraw (by rw [hsaid]; exact h.ne_nil)
  obtain ⟨body, hbody, hstatement⟩ := h.exists_statement
  have hbodies : bodies (statements (linesOf source)) =
      bodies (statements ((linesOf source).filter (·.number ≤ n))) ++ body :: bodies (statements rest) := by
    have hone : bodies [⟨label, body⟩] = [body] := by simp [bodies, hbody.ne_nil]
    conv_lhs => rw [hlines, hsaid]
    rw [statements, List.filterMap_append, List.filterMap_cons_some (hstatement (n + 1)), bodies_append,
      bodies_cons, hone]
    rfl
  unfold Means at hmeans
  rw [hbodies, List.map_append, List.map_cons, hbody.denoted?] at hmeans
  obtain ⟨earlier, more, rfl, hearlier, hmore⟩ := List.map_eq_append_iff.1 hmeans.symm
  obtain ⟨o, later, rfl, ho, -⟩ := List.map_eq_cons_iff.1 hmore
  cases ho
  refine ⟨earlier, later, hprogram, ?_, ?_⟩
  · have hlength := congrArg List.length hearlier
    rwa [List.length_map, List.length_map] at hlength
  · refine Instruction.decode_of_spells (Program.spells_of_append hprogram) ⟨?_, ?_⟩ ?_
    · rintro s' ⟨⟩
      exact hs
    · rintro a ⟨⟩
    · rintro target ⟨⟩

/-- A source that is only this line. -/
theorem PushText.assemble_single (h : PushText s label text) (hline : Padded text line) (name : String) :
    assemble name (String.ofList line) verbs =
      .ok ⟨name, .ofBytes (Opcode.push (.string s)).encode, .empty, .empty⟩ := by
  have hsaid := said_push h hline
  have hlines : linesOf (String.ofList line) = [⟨1, text⟩] := by
    rw [linesOf_single (hline.newline h.piece.newline) (by rw [hsaid]; exact h.ne_nil), hsaid]
  obtain ⟨body, -, hstatement⟩ := h.exists_statement
  have hdeclared : declareSymbols [⟨1, text⟩] = .ok .empty := by
    rw [declareSymbols, List.foldlM_cons, directive?_of_statement? (hstatement 1)]
    rfl
  obtain ⟨d, hstart, hrecords, hreferenced⟩ : ∃ d, Draft.empty.startLine 1 label = .ok d ∧
      d.builder.Records [] ∧ d.referenced = [] := by
    cases label with
    | none => exact ⟨.empty, rfl, .empty, rfl⟩
    | some name =>
        have hdefine : ∃ d, Draft.empty.define 1 name = .ok d ∧ d.referenced = [] := ⟨_, rfl, rfl⟩
        obtain ⟨d, hd, hreferenced⟩ := hdefine
        exact ⟨d, hd, Draft.records_define .empty hd, hreferenced⟩
  have hfinish : (d.append (.push (.string s))).builder.finish =
      .ok (.ofBytes (Opcode.push (.string s)).encode) := by
    rw [Draft.append, Builder.finish_of_records (hrecords.append _)]
    show Except.ok (Program.ofBytes ([Opcode.push (.string s)].flatMap Opcode.encode)) = _
    rw [List.flatMap_singleton]
  have hundefined : undefinedReference? (d.append (.push (.string s))) = none := by
    rw [undefinedReference?, Draft.append, hreferenced]
    rfl
  refine assemble_eq_ok.2 ⟨⟨d.append (.push (.string s)), []⟩, ?_, ?_, hundefined, rfl, hfinish, rfl⟩
  · rw [hlines]
    exact hdeclared
  · rw [hlines, List.foldlM_cons, h.takeLine, hstart]
    rfl

/-- Declarations stay where more of them follow. -/
theorem get?_of_foldlM {lines : List Line} {a : Symbol} (ht : t.get? x = some a)
    (h : lines.foldlM (fun t line =>
      match directive? line.text with
      | some (keyword, rest) =>
        if keyword = "symbol".toList then declareSymbol t line.number rest else .ok t
      | none => .ok t) t = .ok t') : t'.get? x = some a := by
  refine @Attempt.foldlM_prefix _ _ _ _ (fun _ t => t.get? x = some a) [] _ _ _ ?_ ht h
  intro _ line _ t t' ht hstep
  split at hstep
  · split at hstep
    · obtain ⟨b, -, rfl⟩ := declareSymbol_cases hstep
      unfold SymbolTable.get? at ht ⊢
      rw [List.find?_append, ht]
      rfl
    · cases hstep
      exact ht
  · cases hstep
    exact ht

theorem get?_of_insert {a : Symbol} (h : t.insert a = .ok t') : t'.get? a.name = some a := by
  obtain ⟨-, hfree, rfl⟩ := SymbolTable.insert_eq_ok h
  have hnone : t.symbols.find? (·.name == a.name) = none := by
    rw [List.find?_eq_none]
    simpa using hfree
  rw [SymbolTable.get?, List.find?_append, hnone]
  simp

theorem SymbolText.declared (h : SymbolText s x isLocal text) (hline : Padded text line)
    (hraw : (Text.lines source.toList)[n]? = some line)
    (hassemble : assemble name source verbs = .ok script) :
    ∃ address, script.symbols.get? x = some (stringSymbol x s isLocal address) := by
  have hsaid := said_symbol h hline
  obtain ⟨rest, hdirective, hdeclare⟩ := h.exists_declareSymbol
  have hne : text ≠ [] := by
    rintro rfl
    cases hdirective
  obtain ⟨later, hlines⟩ := linesOf_split hraw (by rw [hsaid]; exact hne)
  obtain ⟨p, hstages⟩ := assemble_eq_ok.1 hassemble
  have hsymbols := hstages.symbols
  rw [hlines, hsaid, declareSymbols, List.foldlM_append] at hsymbols
  obtain ⟨t₀, -, hsymbols⟩ := Attempt.bind_eq_ok hsymbols
  rw [List.foldlM_cons, hdirective] at hsymbols
  simp only [if_true, hdeclare] at hsymbols
  obtain ⟨t₁, hinsert, hsymbols⟩ := Attempt.bind_eq_ok hsymbols
  exact ⟨_, get?_of_foldlM (get?_of_insert hinsert) hsymbols⟩

theorem SymbolText.assemble_single (h : SymbolText s x isLocal text) (hline : Padded text line)
    (name : String) : assemble name (String.ofList line) verbs =
      .ok ⟨name, .ofBytes [], ⟨[stringSymbol x s isLocal 0]⟩, .empty⟩ := by
  have hsaid := said_symbol h hline
  obtain ⟨rest, hdirective, hdeclare⟩ := h.exists_declareSymbol
  have hne : text ≠ [] := by
    rintro rfl
    cases hdirective
  have hlines : linesOf (String.ofList line) = [⟨1, text⟩] := by
    rw [linesOf_single (hline.newline h.piece.newline) (by rw [hsaid]; exact hne), hsaid]
  have hdeclared : declareSymbols [⟨1, text⟩] = .ok ⟨[stringSymbol x s isLocal 0]⟩ := by
    rw [declareSymbols, List.foldlM_cons, hdirective]
    simp only [if_true, hdeclare]
    rfl
  have htake : Assembly.takeLine ⟨[stringSymbol x s isLocal 0]⟩ verbs ⟨.empty, []⟩ ⟨1, text⟩ =
      .ok ⟨.empty, []⟩ := by
    unfold Assembly.takeLine
    simp only [hdirective, if_true]
  refine assemble_eq_ok.2 ⟨⟨.empty, []⟩, ?_, ?_, rfl, rfl, rfl, rfl⟩
  · rw [hlines]
    exact hdeclared
  · rw [hlines, List.foldlM_cons, htake]
    rfl

end Sources

/-- **Every string can be written,** if its length can. A line that pushes the string, with or without a label
and a comment, does exactly that: whatever was read before it, it defines its label and appends the push. In a
script, the push stands behind the instructions of the earlier lines and is decoded there.

A line that declares a symbol with the string for its default inserts exactly that symbol, and the script
has it. A source that is only one of these lines does assemble. -/
theorem strings_can_be_written {s : String} (hs : s.utf8ByteSize < wordLimit) :
    (∀ {label text line}, PushText s label text → Padded text line →
      (∀ symbols verbs p number, takeLine symbols verbs p ⟨number, said line⟩ =
        (p.draft.startLine number label).map fun d =>
          { p with draft := d.append (.push (.string s)) }) ∧
      (∀ name verbs, assemble name (String.ofList line) verbs =
        .ok ⟨name, .ofBytes (Opcode.push (.string s)).encode, .empty, .empty⟩) ∧
      ∀ {name source verbs script} {n : Nat}, (Text.lines source.toList)[n]? = some line →
        assemble name source verbs = .ok script → ∃ earlier later,
          script.program = .ofBytes ((earlier ++ .push (.string s) :: later).flatMap Opcode.encode) ∧
          earlier.length = (bodies (statements ((linesOf source).filter (·.number ≤ n)))).length ∧
          script.program.decode (extent earlier) = .ok ⟨.push (.string s), extent earlier,
            extent earlier + (Opcode.push (.string s)).encodedLength⟩) ∧
    ∀ {x isLocal text line}, SymbolText s x isLocal text → Padded text line →
      (∃ rest, directive? (said line) = some ("symbol".toList, rest) ∧ ∀ t number,
        declareSymbol t number rest = t.insert (stringSymbol x s isLocal t.memorySize)) ∧
      (∀ name verbs, assemble name (String.ofList line) verbs =
        .ok ⟨name, .ofBytes [], ⟨[stringSymbol x s isLocal 0]⟩, .empty⟩) ∧
      ∀ {name source verbs script} {n : Nat}, (Text.lines source.toList)[n]? = some line →
        assemble name source verbs = .ok script →
          ∃ address, script.symbols.get? x = some (stringSymbol x s isLocal address) := by
  constructor
  · intro label text line htext hline
    refine ⟨?_, fun name verbs => htext.assemble_single hline name, htext.emitted hs hline⟩
    rw [said_push htext hline]
    exact fun _ _ => htext.takeLine
  · intro x isLocal text line htext hline
    refine ⟨?_, fun name verbs => htext.assemble_single hline name, htext.declared hline⟩
    rw [said_symbol htext hline]
    exact htext.exists_declareSymbol

/-- A string with a comment in it, a label, a quote, and a backslash, which ends in `local`. -/
def awkward : String := ";a:\"b\\ local"

theorem strings_can_be_written_awkward :
    assemble "demo" "go: push \";a:\\\"b\\\\ local\" ; \"c" (fun _ => none) =
      .ok ⟨"demo", .ofBytes (Opcode.push (.string awkward)).encode, .empty, .empty⟩ ∧
    assemble "demo" ".symbol string x = \";a:\\\"b\\\\ local\" local" (fun _ => none) =
      .ok ⟨"demo", .ofBytes [], ⟨[stringSymbol "x" awkward true 0]⟩, .empty⟩ := by
  have hgap : Gap [' '] := ⟨by simp [Blanks]; decide, by simp⟩
  have hpush : PushText awkward (some "go") _ := .labelled (by decide +kernel) hgap.blanks (.plain hgap)
  have hsymbol : SymbolText awkward "x" true _ :=
    .intro (by decide +kernel) hgap hgap hgap (.own (.shared hgap.blanks) hgap)
  have hs : awkward.utf8ByteSize < wordLimit := by decide +kernel
  have hpushed := ((strings_can_be_written hs).1 hpush
    ⟨[], [' '], "; \"c".toList, .nil, hgap.blanks, .inr ⟨_, by decide +kernel, rfl⟩, rfl⟩).2.1 "demo"
  have hdeclared := ((strings_can_be_written hs).2 hsymbol
    ⟨[], [], [], .nil, .nil, .inl rfl, rfl⟩).2.1 "demo"
  constructor
  · rw [← hpushed]
    congr 1
  · rw [← hdeclared]
    congr 1

end Assembly
end CogMachine
