import CogMachine.Proofs.Editing

/-!
# Sources that are arranged alike

Assembly takes the declarations of a source by themselves, then the code, and exports the messages at the end
into a table that is sorted by name. So the numbers of the lines do not count, and neither does where the
declarations and the messages are among the other lines.

- `Arranged`: the same lines, with the declarations in the same order and the code in the same order.
- `declareSymbols_iff` and `foldlM_takeLine_iff`: what declarations and code come to is told by their texts
  alone.
- `exportMessage_comm`: messages may be exported in any order.
- `assemble_arranged`: sources that are arranged alike assemble to the same script.
-/

namespace CogMachine

/-! ## Sorted tables -/

namespace ExportTable

variable {a b : String} {x y : Nat}

/-- Entries with different names may be inserted in any order. -/
theorem insertSorted_comm_of_lt (hlt : a < b) (x y : Nat) (entries : List (String × Nat)) :
    insertSorted a x (insertSorted b y entries) = insertSorted b y (insertSorted a x entries) := by
  induction entries with
  | nil => simp [insertSorted, hlt, not_lt_of_gt hlt]
  | cons e entries ih =>
      by_cases hb : b < e.1
      · simp [insertSorted, hb, hlt, hlt.trans hb, not_lt_of_gt hlt]
      · by_cases ha : a < e.1
        · simp [insertSorted, hb, ha, not_lt_of_gt hlt]
        · simp [insertSorted, hb, ha, ih]

theorem insertSorted_comm (hne : a ≠ b) (x y : Nat) (entries : List (String × Nat)) :
    insertSorted a x (insertSorted b y entries) = insertSorted b y (insertSorted a x entries) := by
  rcases lt_or_gt_of_ne hne with hlt | hgt
  · exact insertSorted_comm_of_lt hlt x y entries
  · exact (insertSorted_comm_of_lt hgt y x entries).symm

theorem lookup_insertSorted (hne : b ≠ a) (x : Nat) (entries : List (String × Nat)) :
    (insertSorted a x entries).lookup b = entries.lookup b := by
  have hbeq : (b == a) = false := by simpa using hne
  induction entries with
  | nil => simp [insertSorted, List.lookup_cons, hbeq]
  | cons e entries ih =>
      obtain ⟨c, z⟩ := e
      unfold insertSorted
      split
      · simp [List.lookup_cons, hbeq]
      · simp [List.lookup_cons, ih]

theorem lookup_insertSorted_self (a : String) (x : Nat) (entries : List (String × Nat)) :
    (insertSorted a x entries).lookup a ≠ none := by
  induction entries with
  | nil => simp [insertSorted]
  | cons e entries ih =>
      obtain ⟨c, z⟩ := e
      unfold insertSorted
      split
      · simp
      · rw [List.lookup_cons]
        split
        · simp
        · exact ih

end ExportTable

namespace Assembly

variable {t t' : SymbolTable} {verbs : String → Option VerbId} {d d' : Draft}
variable {cs text : List Char} {lines : List Line}

/-! ## Kinds of lines -/

/-- Whether a line declares a symbol. -/
def isSymbol (text : List Char) : Bool := (directive? text).any fun (keyword, _) => keyword = "symbol".toList

/-- Whether a line is code: an instruction, a label, or both. -/
def isCode (text : List Char) : Bool := (directive? text).isNone

/-- **Arranged alike:** the same lines, with the declarations and the code each in the same order. -/
structure Arranged (texts texts' : List (List Char)) : Prop where
  perm : texts.Perm texts'
  symbols : texts.filter isSymbol = texts'.filter isSymbol
  code : texts.filter isCode = texts'.filter isCode

namespace Arranged

theorem refl (texts : List (List Char)) : Arranged texts texts := ⟨.refl _, rfl, rfl⟩

theorem trans {texts texts' texts'' : List (List Char)} (h : Arranged texts texts')
    (h' : Arranged texts' texts'') : Arranged texts texts'' :=
  ⟨h.perm.trans h'.perm, h.symbols.trans h'.symbols, h.code.trans h'.code⟩

end Arranged

/-! ## Declarations -/

/-- What a line does to the table of symbols, whatever its number. -/
def declareText (t : SymbolTable) (text : List Char) : Except AssemblyError SymbolTable :=
  match directive? text with
  | some (keyword, rest) => if keyword = "symbol".toList then declareSymbol t 0 rest else .ok t
  | none => .ok t

/-- **Declarations** by their texts. -/
theorem declareSymbols_iff : declareSymbols lines = .ok t ↔
    ((lines.map Line.text).filter isSymbol).foldlM declareText .empty = .ok t := by
  have hidle : ∀ (t : SymbolTable) text, isSymbol text = false → declareText t text = .ok t := by
    intro t text h
    unfold declareText
    unfold isSymbol at h
    cases hdirective : directive? text with
    | none => rfl
    | some directive =>
        rw [hdirective] at h
        exact if_neg (by simpa using h)
  rw [Attempt.foldlM_filter hidle]
  refine Attempt.foldlM_map_iff fun t line t' => ?_
  unfold declareText
  cases directive? line.text with
  | none => exact Iff.rfl
  | some directive =>
      by_cases hsymbol : directive.1 = "symbol".toList
      · simp only [hsymbol, if_true]
        exact ⟨fun h => declareSymbol_line h 0, fun h => declareSymbol_line h line.number⟩
      · simp only [hsymbol, if_false]

/-! ## Code -/

section Code

theorem define_line {line : Nat} {name : String} (h : d.define line name = .ok d') (line' : Nat) :
    d.define line' name = .ok d' := by
  unfold Draft.define at h ⊢
  simp only at h ⊢
  split at h
  · cases h
  · rename_i hnew
    rw [if_neg hnew]
    exact h

theorem appendBranchTo_line {line : Nat} {op : BranchOp} (h : appendBranchTo d line op cs = .ok d')
    (line' : Nat) : appendBranchTo d line' op cs = .ok d' := by
  unfold appendBranchTo at h ⊢
  split at h
  · exact h
  · split at h
    · rename_i hname
      rw [if_pos hname]
      exact h
    · cases h

/-- An instruction does not look at its line. -/
theorem instruction_line {line : Nat} (h : instruction t verbs d line cs = .ok d') (line' : Nat) :
    instruction t verbs d line' cs = .ok d' := by
  rw [instruction_eq] at h ⊢
  cases hm : mnemonic? cs with
  | none =>
      rw [hm] at h
      cases h
  | some m =>
      rw [hm] at h
      cases m with
      | push =>
          simp only [Opcode.bare?] at h ⊢
          split at h
          · exact h
          · cases h
      | memory op =>
          simp only [Opcode.bare?] at h ⊢
          obtain ⟨a, ha, rfl⟩ := Attempt.map_eq_ok h
          rw [memoryOperand_line ha line']
          rfl
      | branch op =>
          simp only [Opcode.bare?] at h ⊢
          exact appendBranchTo_line h line'
      | call keeps =>
          simp only [Opcode.bare?] at h ⊢
          obtain ⟨v, hv, rfl⟩ := Attempt.map_eq_ok h
          rw [verbOperand_of_verb? (ne_nil_of_verbOperand hv) (Draft.verb?_of_verbOperand hv) line']
          rfl
      | dup | ret | unary op | binary op =>
          simp only [Opcode.bare?] at h ⊢
          split at h
          · rename_i hempty
            rw [if_pos hempty]
            exact h
          · cases h

/-- What a line of code does to the draft, whatever its number. -/
def codeText (t : SymbolTable) (verbs : String → Option VerbId) (d : Draft) (text : List Char) :
    Except AssemblyError Draft :=
  codeLine t verbs d ⟨0, text⟩

theorem codeLine_line {line : Line} (h : codeLine t verbs d line = .ok d') (number : Nat) :
    codeLine t verbs d ⟨number, line.text⟩ = .ok d' := by
  unfold codeLine at h ⊢
  simp only at h ⊢
  split at h
  · exact instruction_line h number
  · obtain ⟨d₁, hd₁, h⟩ := Attempt.bind_eq_ok h
    rw [define_line hd₁ number]
    simp only [bind, Except.bind] at h ⊢
    split at h
    · rename_i hempty
      rw [if_pos hempty]
      exact h
    · rename_i hempty
      rw [if_neg hempty]
      exact instruction_line h number

/-- **A directive** that may stand in a source: a declaration, or a message with a name. -/
def Directs (text : List Char) : Prop :=
  ∃ keyword rest, directive? text = some (keyword, rest) ∧
    (keyword = "symbol".toList ∨ keyword = "message".toList ∧ isName (Text.trim rest) = true)

theorem takeLine_of_isCode {p p' : Progress} {line : Line} (hcode : isCode line.text = true) :
    takeLine t verbs p line = .ok p' ↔
      ∃ d, codeText t verbs p.draft line.text = .ok d ∧ p' = { p with draft := d } := by
  have hnone : directive? line.text = none := by simpa [isCode] using hcode
  unfold takeLine
  rw [hnone]
  constructor
  · intro h
    obtain ⟨d, hd, rfl⟩ := Attempt.map_eq_ok h
    exact ⟨d, codeLine_line hd 0, rfl⟩
  · rintro ⟨d, hd, rfl⟩
    simp only [codeLine_line hd line.number, Except.map]

/-- Directives are taken without a change of the draft. -/
theorem takeLine_of_not_isCode (t : SymbolTable) (verbs : String → Option VerbId) (p : Progress)
    {line : Line} (hcode : isCode line.text = false) :
    (∀ p', takeLine t verbs p line = .ok p' → p'.draft = p.draft ∧ Directs line.text) ∧
      (Directs line.text → ∃ p', takeLine t verbs p line = .ok p' ∧ p'.draft = p.draft) := by
  unfold isCode at hcode
  unfold takeLine Directs
  cases hdirective : directive? line.text with
  | none =>
      rw [hdirective] at hcode
      cases hcode
  | some directive =>
      obtain ⟨keyword, rest⟩ := directive
      simp only
      by_cases hsymbol : keyword = "symbol".toList
      · simp only [if_pos hsymbol]
        refine ⟨?_, fun _ => ⟨p, rfl, rfl⟩⟩
        rintro p' ⟨⟩
        exact ⟨rfl, keyword, rest, rfl, .inl hsymbol⟩
      · simp only [if_neg hsymbol]
        by_cases hmessage : keyword = "message".toList
        · simp only [if_pos hmessage]
          constructor
          · intro p' h
            split at h
            · rename_i hname
              cases h
              exact ⟨rfl, keyword, rest, rfl, .inr ⟨hmessage, hname⟩⟩
            · cases h
          · rintro ⟨_, _, ⟨⟩, hcases⟩
            obtain ⟨-, hname⟩ := hcases.resolve_left hsymbol
            rw [if_pos hname]
            exact ⟨_, rfl, rfl⟩
        · simp only [if_neg hmessage]
          refine ⟨nofun, ?_⟩
          rintro ⟨_, _, ⟨⟩, hcases⟩
          exact absurd (hcases.resolve_left hsymbol).1 hmessage

/-- **The lines of a source** by their texts: the code comes to a draft, and the directives may stand
anywhere. -/
theorem foldlM_takeLine_iff {p : Progress} :
    (∃ p', lines.foldlM (takeLine t verbs) p = .ok p' ∧ p'.draft = d) ↔
      ((lines.map Line.text).filter isCode).foldlM (codeText t verbs) p.draft = .ok d ∧
        ∀ text ∈ lines.map Line.text, isCode text = false → Directs text := by
  induction lines generalizing p with
  | nil =>
      constructor
      · rintro ⟨p', ⟨⟩, rfl⟩
        exact ⟨rfl, nofun⟩
      · rintro ⟨h, -⟩
        cases h
        exact ⟨p, rfl, rfl⟩
  | cons line lines ih =>
      rw [List.map_cons, List.filter_cons, List.forall_mem_cons]
      cases hcode : isCode line.text with
      | true =>
          simp only [if_true, List.foldlM_cons]
          constructor
          · rintro ⟨p', h, hd⟩
            obtain ⟨p₁, hp₁, h⟩ := Attempt.bind_eq_ok h
            obtain ⟨d₁, hd₁, rfl⟩ := (takeLine_of_isCode hcode).1 hp₁
            obtain ⟨hrest, hall⟩ := ih.1 ⟨p', h, hd⟩
            rw [hd₁]
            exact ⟨hrest, nofun, hall⟩
          · rintro ⟨h, -, hall⟩
            obtain ⟨d₁, hd₁, h⟩ := Attempt.bind_eq_ok h
            obtain ⟨p', hp', hd⟩ := (ih (p := { p with draft := d₁ })).2 ⟨h, hall⟩
            rw [(takeLine_of_isCode hcode).2 ⟨d₁, hd₁, rfl⟩]
            exact ⟨p', hp', hd⟩
      | false =>
          obtain ⟨htaken, htakes⟩ := takeLine_of_not_isCode t verbs p hcode
          simp only [Bool.false_eq_true, if_false, List.foldlM_cons]
          constructor
          · rintro ⟨p', h, hd⟩
            obtain ⟨p₁, hp₁, h⟩ := Attempt.bind_eq_ok h
            obtain ⟨hdraft, hdirects⟩ := htaken p₁ hp₁
            obtain ⟨hrest, hall⟩ := ih.1 ⟨p', h, hd⟩
            rw [hdraft] at hrest
            exact ⟨hrest, fun _ => hdirects, hall⟩
          · rintro ⟨h, hdirects, hall⟩
            obtain ⟨p₁, hp₁, hdraft⟩ := htakes (hdirects trivial)
            rw [← hdraft] at h
            obtain ⟨p', hp', hd⟩ := ih.2 ⟨h, hall⟩
            rw [hp₁]
            exact ⟨p', hp', hd⟩

end Code

/-! ## Messages -/

section Messages

variable {x x' : ExportTable} {message : Nat × String}

/-- **One message:** it is new and its label stands somewhere. -/
theorem exportMessage_iff : exportMessage d x message = .ok x' ↔
    ∃ offset, d.position? message.2 = some offset ∧ x.offset? message.2 = none ∧
      x' = ⟨ExportTable.insertSorted message.2 offset x.entries⟩ := by
  obtain ⟨line, name⟩ := message
  unfold exportMessage ExportTable.insert
  simp only
  cases d.position? name with
  | none => simp
  | some offset =>
      cases hknown : x.offset? name with
      | some n => simp
      | none => simp [eq_comm]

/-- **Messages may be exported in any order.** -/
theorem exportMessage_comm (x : ExportTable) (first second : Nat × String) (x₁ x₂ : ExportTable)
    (h₁ : exportMessage d x first = .ok x₁) (h₂ : exportMessage d x₁ second = .ok x₂) :
    ∃ x₃, exportMessage d x second = .ok x₃ ∧ exportMessage d x₃ first = .ok x₂ := by
  obtain ⟨n, hn, hnew, rfl⟩ := exportMessage_iff.1 h₁
  obtain ⟨k, hk, hnew', rfl⟩ := exportMessage_iff.1 h₂
  have hne : second.2 ≠ first.2 := by
    intro heq
    rw [ExportTable.offset?, heq] at hnew'
    exact ExportTable.lookup_insertSorted_self _ _ _ hnew'
  refine ⟨_, exportMessage_iff.2 ⟨k, hk, ?_, rfl⟩, exportMessage_iff.2 ⟨n, hn, ?_, ?_⟩⟩
  · rw [← hnew']
    exact (ExportTable.lookup_insertSorted hne n x.entries).symm
  · rw [← hnew]
    exact ExportTable.lookup_insertSorted (Ne.symm hne) k x.entries
  · rw [ExportTable.insertSorted_comm hne]

/-- The exports are told by the names of the messages, in any order. -/
theorem foldlM_exportMessage_perm {messages messages' : List (Nat × String)}
    (hperm : (messages.map Prod.snd).Perm (messages'.map Prod.snd))
    (h : messages.foldlM (exportMessage d) x = .ok x') :
    messages'.foldlM (exportMessage d) x = .ok x' := by
  have hview : ∀ (x : ExportTable) (message : Nat × String) x', exportMessage d x message = .ok x' ↔
      exportMessage d x (0, message.2) = .ok x' := by
    intro x message x'
    rw [exportMessage_iff, exportMessage_iff]
  rw [Attempt.foldlM_map_iff (g := fun x name => exportMessage d x (0, name)) hview] at h ⊢
  exact Attempt.foldlM_perm (fun x first second => exportMessage_comm x (0, first) (0, second)) hperm h

theorem messageNames_perm {lines lines' : List Line}
    (h : (lines.map Line.text).Perm (lines'.map Line.text)) :
    (messageNames lines).Perm (messageNames lines') := by
  have hview : ∀ lines : List Line, directives "message" lines =
      (lines.map Line.text).filterMap fun text => match directive? text with
        | some (word, rest) => if word = "message".toList then some rest else none
        | none => none := by
    intro lines
    rw [List.filterMap_map]
    rfl
  unfold messageNames
  rw [hview, hview]
  exact (h.filterMap _).map _

end Messages

/-! ## The whole source -/

/-- **Sources that are arranged alike** assemble to the same script. -/
theorem assemble_arranged {name source source' : String} {script : Script}
    (harranged : Arranged ((linesOf source).map Line.text) ((linesOf source').map Line.text))
    (h : assemble name source verbs = .ok script) : assemble name source' verbs = .ok script := by
  obtain ⟨p, hstages⟩ := assemble_eq_ok.1 h
  obtain ⟨hcode, hdirects⟩ := foldlM_takeLine_iff.1 ⟨p, hstages.lines, rfl⟩
  obtain ⟨p', hlines, hdraft⟩ :
      ∃ p', (linesOf source').foldlM (takeLine script.symbols verbs) ⟨.empty, []⟩ = .ok p' ∧
        p'.draft = p.draft :=
    foldlM_takeLine_iff.2
      ⟨harranged.code ▸ hcode, fun text htext => hdirects text (harranged.perm.mem_iff.2 htext)⟩
  have hmessages : (p.messages.reverse.map Prod.snd).Perm (p'.messages.reverse.map Prod.snd) := by
    rw [(follows_foldlM hstages.lines).messages, (follows_foldlM hlines).messages]
    exact messageNames_perm harranged.perm
  refine assemble_eq_ok.2 ⟨p', ?_, hlines, ?_, ?_, ?_, hstages.name⟩
  · rw [declareSymbols_iff, ← harranged.symbols]
    exact declareSymbols_iff.1 hstages.symbols
  · rw [hdraft]
    exact hstages.defined
  · rw [hdraft]
    exact foldlM_exportMessage_perm hmessages hstages.exports
  · rw [hdraft]
    exact hstages.program

end Assembly
end CogMachine
