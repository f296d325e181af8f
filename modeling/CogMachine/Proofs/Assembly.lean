import CogMachine.Proofs.Codec
import CogMachine.Proofs.Drafting

/-!
# Assembly is correct

Declarations, lines and messages are each taken one after the other; what is true of the ones taken so
far is kept by the next (`Attempt.foldlM_prefix`). At the end the draft holds the statements of the whole
source, so its builder finishes with the opcodes the source means, and these decode again.

`assemble_correct` puts it together.
-/

namespace CogMachine.Assembly

/-! ## Declarations -/

section Declarations

variable {t t' : SymbolTable} {s : Symbol} {cs : List Char} {decls : List (List Char)}

theorem of_declared? {address : Nat} (h : declared? address cs = some s) :
    s.name = declaredName cs ∧ s.address = address := by
  unfold declared? at h
  simp only at h
  obtain ⟨type, -, h⟩ := Option.bind_eq_some_iff.1 h
  obtain ⟨default, -, rfl⟩ := Option.map_eq_some_iff.1 h
  exact ⟨rfl, rfl⟩

theorem default?_of_declaredDefault {line : Nat} {type : ValueType} {given : Option Value}
    (h : declaredDefault line cs = .ok given) :
    default? type cs = some (given.getD (.zero type)) := by
  unfold declaredDefault at h
  split at h
  · cases h
    rfl
  · rename_i literal
    simp only at h
    show Value.ofText? (Text.trim literal) = _
    cases hv : Value.ofText? (Text.trim literal) with
    | none =>
        rw [hv] at h
        cases h
    | some v =>
        rw [hv] at h
        cases h
        rfl
  · cases h

/-- **One declaration** adds its symbol at the end, at the first address above the others. -/
theorem declareSymbol_cases {line : Nat} (h : declareSymbol t line cs = .ok t') :
    ∃ s, declared? t.memorySize cs = some s ∧ t' = ⟨t.symbols ++ [s]⟩ := by
  unfold declareSymbol at h
  unfold declared?
  have hname : declaredName cs =
      String.ofList (Text.splitWord (Text.trim (Text.splitWord (Text.trim cs)).2)).1 := rfl
  rw [hname]
  generalize Text.splitWord (Text.trim cs) = words at h
  obtain ⟨typeWord, afterType⟩ := words
  simp only at h ⊢
  generalize Text.splitWord (Text.trim afterType) = words at h
  obtain ⟨name, afterName⟩ := words
  simp only [bind, Except.bind, throw, throwThe, MonadExceptOf.throw] at h ⊢
  split at h
  · cases h
  · cases htype : ValueType.ofText? (String.ofList typeWord) with
    | none =>
        rw [htype] at h
        cases h
    | some type =>
        rw [htype] at h
        generalize splitLocal (Text.trim afterName) = parts at h
        obtain ⟨rest, isLocal⟩ := parts
        simp only [Option.bind_some] at h ⊢
        obtain ⟨given, hgiven, h⟩ := Attempt.bind_eq_ok h
        refine ⟨_, ?_, (SymbolTable.insert_eq_ok h).2.2⟩
        rw [default?_of_declaredDefault hgiven]
        rfl

/-- **What a table has of the declarations taken so far.** -/
structure Declares (decls : List (List Char)) (t : SymbolTable) : Prop where
  symbols : t.symbols.map some = decls.zipIdx.map fun (cs, k) => declared? k cs
  size : t.memorySize = decls.length
  address : ∀ name, (t.get? name).map Symbol.address = symbolAddress? decls name

theorem Declares.snoc {line : Nat} (h : Declares decls t)
    (hcs : declareSymbol t line cs = .ok t') : Declares (decls ++ [cs]) t' := by
  obtain ⟨s, hs, rfl⟩ := declareSymbol_cases hcs
  rw [h.size] at hs
  obtain ⟨hname, haddress⟩ := of_declared? hs
  refine ⟨?_, ?_, ?_⟩
  · simp [List.zipIdx_append, h.symbols, hs]
  · -- The new address is the largest.
    have hsize := h.size
    unfold SymbolTable.memorySize at hsize ⊢
    rw [List.foldl_append, hsize, List.length_append]
    simp [haddress]
  · intro name
    have hrest := h.address name
    unfold SymbolTable.get? symbolAddress? at hrest ⊢
    rw [List.find?_append, List.findIdx?_append, ← hrest]
    cases hfind : t.symbols.find? (·.name == name) with
    | some s' => simp
    | none =>
        by_cases hn : s.name = name
        · simp [hn, ← hname, haddress]
        · simp [hn, ← hname]

/-- **Declarations** of a source: all symbols in order. -/
theorem declares_declareSymbols {lines : List Line} (h : declareSymbols lines = .ok t) :
    Declares (declarations lines) t := by
  have hempty : Declares (declarations []) .empty := ⟨rfl, rfl, fun _ => rfl⟩
  refine Attempt.foldlM_prefix (P := fun done t => Declares (declarations done) t) ?_ hempty h
  intro done line _ t t' ht hline
  have hsnoc : declarations (done ++ [line]) = declarations done ++ directives "symbol" [line] :=
    directives_snoc "symbol" done line
  rw [hsnoc, directives_singleton]
  cases hdirective : directive? line.text with
  | none =>
      rw [hdirective] at hline
      cases hline
      rw [List.append_nil]
      exact ht
  | some r =>
      obtain ⟨keyword, rest⟩ := r
      rw [hdirective] at hline
      simp only at hline ⊢
      by_cases hkeyword : keyword = "symbol".toList
      · rw [if_pos hkeyword] at hline ⊢
        exact ht.snoc hline
      · rw [if_neg hkeyword] at hline ⊢
        cases hline
        rw [List.append_nil]
        exact ht

end Declarations

/-! ## Lines -/

section Lines

variable {t : SymbolTable} {verbs : String → Option VerbId} {lines : List Line}

theorem text_ne_nil {source : String} {line : Line} (h : line ∈ linesOf source) :
    line.text ≠ [] := by
  unfold linesOf at h
  obtain ⟨⟨cs, number⟩, -, hline⟩ := List.mem_filterMap.1 h
  simp only at hline
  split at hline
  · cases hline
  · rename_i htext
    cases hline
    intro hempty
    exact htext (List.isEmpty_iff.2 hempty)

/-- **What is kept of the lines taken so far:** the draft holds their statements, and the messages are
theirs. -/
structure Progress.Follows (t : SymbolTable) (verbs : String → Option VerbId) (lines : List Line)
    (p : Progress) : Prop where
  draft : ∃ items, p.draft.Holds (fun n => (t.get? n).map Symbol.address) verbs
    (statements lines) items
  messages : p.messages.reverse.map Prod.snd = messageNames lines

theorem follows_empty : Progress.Follows t verbs [] ⟨.empty, []⟩ :=
  ⟨⟨[], Draft.holds_empty⟩, rfl⟩

/-- **The step.** One line adds its statement or its message. -/
theorem Progress.Follows.snoc {p p' : Progress} {line : Line} (h : p.Follows t verbs lines)
    (htext : line.text ≠ []) (hp : takeLine t verbs p line = .ok p') :
    p'.Follows t verbs (lines ++ [line]) := by
  obtain ⟨items, hdraft⟩ := h.draft
  have hmessages : messageNames (lines ++ [line]) = messageNames lines ++
      (directives "message" [line]).map fun cs => String.ofList (Text.trim cs) := by
    unfold messageNames
    rw [directives_snoc, List.map_append]
  rw [directives_singleton] at hmessages
  have hstatements := statements_snoc lines line
  unfold takeLine at hp
  cases hdirective : directive? line.text with
  | none =>
      rw [hdirective] at hp hmessages
      rw [List.map_nil, List.append_nil] at hmessages
      obtain ⟨d, hd, rfl⟩ := Attempt.map_eq_ok hp
      obtain ⟨s, hs⟩ : ∃ s, statement? line = some s := by
        unfold statement?
        rw [hdirective]
        cases splitLabel? line.text with
        | none => exact ⟨_, rfl⟩
        | some r => exact ⟨_, rfl⟩
      rw [hs] at hstatements
      refine ⟨?_, ?_⟩
      · rw [hstatements]
        exact hdraft.codeLine (fun _ => rfl) hs htext hd
      · rw [hmessages]
        exact h.messages
  | some r =>
      obtain ⟨keyword, rest⟩ := r
      have hs : statement? line = none := by
        unfold statement?
        rw [hdirective]
      rw [hs, Option.toList_none, List.append_nil] at hstatements
      rw [hdirective] at hp hmessages
      simp only at hp hmessages
      by_cases hsymbol : keyword = "symbol".toList
      · rw [if_pos hsymbol] at hp
        cases hp
        have hne : keyword ≠ "message".toList := by
          rw [hsymbol]
          decide
        rw [if_neg hne, List.map_nil, List.append_nil] at hmessages
        exact ⟨⟨items, hstatements ▸ hdraft⟩, hmessages ▸ h.messages⟩
      · rw [if_neg hsymbol] at hp
        by_cases hmessage : keyword = "message".toList
        · rw [if_pos hmessage] at hp hmessages
          split at hp
          · cases hp
            refine ⟨⟨items, hstatements ▸ hdraft⟩, ?_⟩
            rw [hmessages, List.reverse_cons, List.map_append, h.messages]
            rfl
          · cases hp
        · rw [if_neg hmessage] at hp
          cases hp

/-- **The run.** All lines of a source. -/
theorem follows_foldlM {source : String} {p : Progress}
    (h : (linesOf source).foldlM (takeLine t verbs) ⟨.empty, []⟩ = .ok p) :
    p.Follows t verbs (linesOf source) := by
  refine Attempt.foldlM_prefix (P := fun done p => p.Follows t verbs done) ?_ follows_empty h
  intro done line hline p p' hp hp'
  exact hp.snoc (text_ne_nil hline) hp'

end Lines

/-! ## Messages -/

section Messages

variable {d : Draft} {t t' : ExportTable}

theorem perm_insertSorted (name : String) (offset : Nat) (entries : List (String × Nat)) :
    (ExportTable.insertSorted name offset entries).Perm ((name, offset) :: entries) := by
  induction entries with
  | nil => exact .refl _
  | cons entry entries ih =>
      unfold ExportTable.insertSorted
      by_cases hlt : name < entry.1
      · rw [if_pos hlt]
      · rw [if_neg hlt]
        exact (ih.cons entry).trans (.swap (name, offset) entry entries)

theorem exportMessage_cases {message : Nat × String} (h : exportMessage d t message = .ok t') :
    ∃ offset, d.position? message.2 = some offset ∧
      t'.entries.Perm ((message.2, offset) :: t.entries) := by
  obtain ⟨line, name⟩ := message
  unfold exportMessage at h
  simp only at h
  cases hposition : d.position? name with
  | none =>
      rw [hposition] at h
      cases h
  | some offset =>
      rw [hposition] at h
      by_cases hknown : (t.offset? name).isSome
      · simp only [ExportTable.insert, if_pos hknown] at h
        cases h
      · simp only [ExportTable.insert, if_neg hknown] at h
        cases h
        exact ⟨offset, rfl, perm_insertSorted name offset t.entries⟩

/-- **Exports** are the messages, each where its label stands. -/
theorem perm_exportMessage {messages : List (Nat × String)}
    (h : messages.foldlM (exportMessage d) .empty = .ok t) :
    (t.entries.map fun e => (e.1, some e.2)).Perm
      (messages.map fun m => (m.2, d.position? m.2)) := by
  have hempty : (ExportTable.empty.entries.map fun e => (e.1, some e.2)).Perm
      (([] : List (Nat × String)).map fun m => (m.2, d.position? m.2)) := .nil
  refine Attempt.foldlM_prefix (P := fun done t => (t.entries.map fun e => (e.1, some e.2)).Perm
    (done.map fun m => (m.2, d.position? m.2))) ?_ hempty h
  intro done message _ t t' ht ht'
  obtain ⟨offset, hoffset, hperm⟩ := exportMessage_cases ht'
  rw [List.map_append]
  have hinsert := hperm.map fun e : String × Nat => (e.1, some e.2)
  have hlast : [message].map (fun m => (m.2, d.position? m.2)) = [(message.2, some offset)] := by
    rw [← hoffset]
    rfl
  rw [hlast]
  exact hinsert.trans ((ht.cons _).trans (List.perm_append_singleton _ _).symm)

end Messages

end CogMachine.Assembly

namespace CogMachine

open Assembly

/-! ## The whole source -/

/-- **The stages of an assembly,** which all succeed: declarations, lines, the names that branches use, messages,
and the program. -/
structure Assembly.Stages (name source : String) (verbs : String → Option VerbId) (script : Script)
    (p : Progress) : Prop where
  symbols : declareSymbols (linesOf source) = .ok script.symbols
  lines : (linesOf source).foldlM (takeLine script.symbols verbs) ⟨.empty, []⟩ = .ok p
  defined : undefinedReference? p.draft = none
  exports : p.messages.reverse.foldlM (exportMessage p.draft) .empty = .ok script.exports
  program : p.draft.builder.finish = .ok script.program
  name : script.name = name

/-- A source assembles by its stages. -/
theorem assemble_eq_ok {name source : String} {verbs : String → Option VerbId} {script : Script} :
    assemble name source verbs = .ok script ↔ ∃ p, Stages name source verbs script p := by
  constructor
  · intro h
    unfold assemble at h
    obtain ⟨t, hsymbols, h⟩ := Attempt.bind_eq_ok h
    obtain ⟨p, hlines, h⟩ := Attempt.bind_eq_ok h
    split at h
    · cases h
    · rename_i hdefined
      obtain ⟨exports, hexports, h⟩ := Attempt.bind_eq_ok h
      obtain ⟨program, hprogram, h⟩ := Attempt.bind_eq_ok h
      cases h
      exact ⟨p, hsymbols, hlines, hdefined, hexports, hprogram, rfl⟩
  · rintro ⟨p, h⟩
    unfold assemble
    simp only [h.symbols, bind, Except.bind, h.lines, h.defined, h.exports, h.program, ← h.name]
    rfl

/-- **Assembly is correct.** A script that assembly gives has a reading of its source: one opcode for
each text of an instruction, in order, with every label standing for the sum of the lengths before it.
These are the instructions of the program, the messages are exported where their labels stand, and the
symbols are the declarations in order. -/
theorem assemble_correct {name source : String} {verbs : String → Option VerbId} {script : Script}
    (h : assemble name source verbs = .ok script) :
    ∃ os : List Opcode,
      Means (linesOf source) verbs os ∧
      ((∀ s, Opcode.push (.string s) ∈ os → s.utf8ByteSize < wordLimit) →
        (∀ o ∈ os, ∀ target, o.target? = some target → target < script.program.length) →
        script.program.instructions = (layout 0 os).map .ok) ∧
      (script.exports.entries.map fun e => (e.1, some e.2)).Perm
        ((messageNames (linesOf source)).map fun n =>
          (n, labelOffset? (statements (linesOf source)) os n)) ∧
      script.symbols.symbols.map some =
        (declarations (linesOf source)).zipIdx.map fun (cs, k) => declared? k cs := by
  unfold assemble at h
  obtain ⟨t, hsymbols, h⟩ := Attempt.bind_eq_ok h
  obtain ⟨p, hlines, h⟩ := Attempt.bind_eq_ok h
  split at h
  · cases h
  · obtain ⟨exports, hexports, h⟩ := Attempt.bind_eq_ok h
    obtain ⟨program, hfinish, h⟩ := Attempt.bind_eq_ok h
    cases h
    have hdecls := declares_declareSymbols hsymbols
    have hfollows := follows_foldlM hlines
    obtain ⟨items, hdraft⟩ := hfollows.draft
    obtain ⟨os, hos, hprogram, haddress⟩ :=
      hdraft.records.finish_cases hfinish
    have haddresses : (fun n => (t.get? n).map Symbol.address) =
        symbolAddress? (declarations (linesOf source)) := funext hdecls.address
    rw [haddresses] at hdraft
    -- The addresses are in range since the builder finished; strings and targets are assumed to be.
    refine ⟨os, hdraft.denoted hos, ?_, ?_, hdecls.symbols⟩
    · intro hstring hinside
      simp only at hinside ⊢
      rw [hprogram] at hinside ⊢
      refine Program.instructions_ofBytes (fun o ho => ⟨?_, haddress o ho⟩) hinside
      rintro s rfl
      exact hstring s ho
    · have hperm := perm_exportMessage hexports
      have hmessages : p.messages.reverse.map (fun m => (m.2, p.draft.position? m.2)) =
          (p.messages.reverse.map Prod.snd).map fun n => (n, p.draft.position? n) := by
        rw [List.map_map]
        rfl
      rw [hmessages, hfollows.messages, hdraft.position?_eq hos] at hperm
      exact hperm

/-- A source that names a label ahead of it, a label behind it, and a symbol declared at the end. -/
def twoJumps : String :=
  ".message main\nmain: push 2\nagain: bf done\njmp again ; back\ndone:\n" ++
    "call #7\nload last\nret\n.symbol int first\n.symbol bool last = true"

theorem assemble_correct_twoJumps :
    ∃ script, assemble "demo" twoJumps (fun _ => none) = .ok script ∧
      script.program.instructions =
        (layout 0 [.push (.int 2), .branch .ifFalse 16, .branch .jump 6, .call false ⟨7⟩,
          .memory .load 1, .ret]).map .ok := by
  have h : assemble "demo" twoJumps (fun _ => none) = .ok
      { name := "demo"
        program := ⟨#[1, 1, 2, 0, 0, 0, 35, 16, 0, 0, 0, 32, 6, 0, 0, 0, 48, 7, 0, 0, 0, 16, 1, 0,
          0, 0, 50]⟩
        symbols := ⟨[.ofType "first" .int 0,
          { Symbol.ofType "last" .bool 1 with default := .bool true }]⟩
        exports := ⟨[("main", 0)]⟩ } := by
    decide +kernel
  refine ⟨_, h, ?_⟩
  obtain ⟨os, hmeans, hinstructions, -, -⟩ := assemble_correct h
  have hos : os = [.push (.int 2), .branch .ifFalse 16, .branch .jump 6, .call false ⟨7⟩,
      .memory .load 1, .ret] := hmeans.unique (by decide +kernel)
  subst hos
  apply hinstructions
  · intro s hs
    simp at hs
  · decide

end CogMachine
