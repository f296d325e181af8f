import CogMachine.Proofs.Arranging
import CogMachine.Proofs.Symbols

/-!
# Labels that stand nowhere

A name gets a label at its first use or at its definition, and the operand of a branch is written once all
labels stand. Three places might not know a label then: the table of names, the builder that is asked to place
it, and the builder that finishes. None of them is ever reached with a label it does not know. So a label that
is used and never defined is reported by its name in the source.

- `Draft.Accounts`: the table and the builder know every name that a branch has used. It is kept line by
  line (`Draft.Accounts.takeStatement`) and holds of every draft on the way (`Visits.accounts`).
- `Unresolved`: what it means for a source to use a label that stands nowhere.
- `unresolved_reported`: nothing else is reported as unresolved, and such a source never assembles.
-/

namespace CogMachine

namespace Assembly

variable {t t' : SymbolTable} {verbs : String → Option VerbId} {d d' : Draft} {p p' : Progress}
variable {lines : List Line} {name n : String} {names : List String} {cs : List Char} {line : Nat}

/-! ## Names in a source -/

/-- The name that is the operand of a branch. -/
def branchName? (cs : List Char) : Option String :=
  match mnemonic? cs with
  | some (.branch _) => if isName (operand cs) then some (String.ofList (operand cs)) else none
  | _ => none

/-- **Names of branch operands,** in the order of use. -/
def branchNames (lines : List Line) : List String := (bodies (statements lines)).filterMap branchName?

/-- Whether some line defines a label. -/
def defines (lines : List Line) (name : String) : Bool :=
  (statements lines).any (·.label == some name)

/-- **Unresolved:** a name that is the operand of a branch or the label of a message, while no line
defines it. -/
structure Unresolved (lines : List Line) (name : String) : Prop where
  isName : isName name.toList = true
  used : name ∈ branchNames lines ∨ name ∈ messageNames lines
  undefined : defines lines name = false

theorem branchName?_eq_some : branchName? cs = some name ↔
    (∃ op, mnemonic? cs = some (.branch op)) ∧ isName (operand cs) = true ∧
      name = String.ofList (operand cs) := by
  unfold branchName?
  split
  · rename_i op hm
    by_cases hname : isName (operand cs) = true
    · simp [hm, hname, eq_comm]
    · simp [hname]
  · rename_i hm
    simp only [reduceCtorEq, false_iff, not_and]
    rintro ⟨op, heq⟩
    exact absurd heq (hm op)

theorem isName_of_mem_branchNames (h : name ∈ branchNames lines) : isName name.toList = true := by
  obtain ⟨cs, -, hcs⟩ := List.mem_filterMap.1 h
  obtain ⟨-, hname, rfl⟩ := branchName?_eq_some.1 hcs
  rwa [String.toList_ofList]

/-- A line adds the name that its instruction branches to. -/
theorem branchNames_snoc (lines : List Line) (line : Line) : branchNames (lines ++ [line]) =
    branchNames lines ++ ((statement? line).bind fun s => branchName? s.body).toList := by
  unfold branchNames
  rw [statements_snoc, bodies_append, List.filterMap_append]
  congr 1
  cases statement? line with
  | none => rfl
  | some s =>
      cases hbody : s.body with
      | nil =>
          have hnone : branchName? [] = none := rfl
          simp [bodies, hbody, hnone]
      | cons c cs =>
          have hbodies : bodies (some s).toList = [c :: cs] := by simp [bodies, hbody]
          rw [hbodies, Option.bind_some, hbody, List.filterMap_cons]
          cases branchName? (c :: cs) <;> rfl

theorem isNone_instructionsBefore? (name : String) (ss : List Statement) :
    (instructionsBefore? name ss).isNone = !ss.any (·.label == some name) := by
  induction ss with
  | nil => rfl
  | cons s ss ih =>
      rw [instructionsBefore?, List.any_cons]
      by_cases hs : s.label = some name
      · simp [hs]
      · rw [if_neg hs, Option.isNone_map, ih]
        simp [hs]

/-! ## Drafts that know their names -/

/-- **What a draft knows of the names that branches have used:** they are in order, each has a label, and an
operand is to be written only for such a label. -/
structure Draft.Accounts (names : List String) (d : Draft) : Prop where
  sound : d.Sound
  referenced : d.referenced.reverse = names
  known : ∀ n ∈ d.referenced, ∃ l, d.labels.lookup n = some l
  fixups : ∀ f ∈ d.builder.fixups.toList, ∃ n ∈ d.referenced, d.labels.lookup n = some f.label

theorem Draft.accounts_empty : Draft.Accounts [] .empty where
  sound := ⟨nofun, nofun⟩
  referenced := rfl
  known := nofun
  fixups := nofun

/-- More names may get labels. -/
theorem Draft.Accounts.of_extends (h : d.Accounts names) (hsound : d'.Sound) (hextends : d'.Extends d)
    (hreferenced : d'.referenced = d.referenced) (hfixups : d'.builder.fixups = d.builder.fixups) :
    d'.Accounts names where
  sound := hsound
  referenced := hreferenced ▸ h.referenced
  known n hn := by
    obtain ⟨l, hl⟩ := h.known n (hreferenced ▸ hn)
    exact ⟨l, hextends n l hl⟩
  fixups f hf := by
    obtain ⟨n, hn, hl⟩ := h.fixups f (hfixups ▸ hf)
    exact ⟨n, hreferenced.symm ▸ hn, hextends n _ hl⟩

theorem Draft.Accounts.labelNamed (h : d.Accounts names) (name : String) :
    (d.labelNamed name).2.Accounts names := by
  refine h.of_extends (h.sound.labelNamed name) (d.extends_labelNamed name) ?_ ?_
  · rcases d.labelNamed_cases name with ⟨l, -, heq⟩ | ⟨-, heq⟩ <;> rw [heq]
  · rcases d.labelNamed_cases name with ⟨l, -, heq⟩ | ⟨-, heq⟩
    · rw [heq]
    · rw [heq]
      rfl

theorem Draft.Accounts.define (h : d.Accounts names) (hd : d.define line name = .ok d') :
    d'.Accounts names := by
  have hsound := h.sound.define hd
  obtain ⟨builder, hplace, rfl⟩ := Draft.define_cases hd
  obtain ⟨-, -, rfl⟩ := Builder.place_eq_ok hplace
  exact (h.labelNamed name).of_extends hsound (fun _ _ hl => hl) rfl rfl

theorem Draft.Accounts.append (h : d.Accounts names) (o : Opcode) : (d.append o).Accounts names :=
  h.of_extends ⟨h.sound.allocated, h.sound.injective⟩ (fun _ _ hl => hl) rfl rfl

theorem Draft.Accounts.appendBranch (h : d.Accounts names) (op : BranchOp) (name : String) :
    (d.appendBranch op name).Accounts (names ++ [name]) := by
  have hnamed := h.labelNamed name
  have hlookup := d.lookup_labelNamed name
  have hreferenced : (d.labelNamed name).2.referenced = d.referenced := by
    rcases d.labelNamed_cases name with ⟨l, -, heq⟩ | ⟨-, heq⟩ <;> rw [heq]
  -- The new name has the label that the new operand waits for; the older ones keep theirs.
  refine ⟨⟨hnamed.sound.allocated, hnamed.sound.injective⟩, ?_, ?_, ?_⟩
  · show (name :: (d.labelNamed name).2.referenced).reverse = _
    rw [List.reverse_cons, hnamed.referenced]
  · intro m hm
    rcases List.mem_cons.1 hm with rfl | hm
    · exact ⟨_, hlookup⟩
    · exact hnamed.known m hm
  · intro f hf
    have hf : f ∈ ((d.labelNamed name).2.builder.fixups.push ⟨_, (d.labelNamed name).1⟩).toList := hf
    rw [Array.toList_push, List.mem_append, List.mem_singleton] at hf
    rcases hf with hf | rfl
    · obtain ⟨m, hm, hl⟩ := hnamed.fixups f hf
      exact ⟨m, List.mem_cons_of_mem name hm, hl⟩
    · exact ⟨name, List.mem_cons_self, hlookup⟩

/-- **One instruction** appends a branch to the name that its text gives, or an opcode if it gives none. -/
theorem instruction_appends (h : instruction t verbs d line cs = .ok d') :
    (∃ o, d' = d.append o ∧ branchName? cs = none) ∨
      ∃ op name, d' = d.appendBranch op name ∧ branchName? cs = some name := by
  rw [instruction_eq] at h
  unfold branchName?
  cases hm : mnemonic? cs with
  | none =>
      rw [hm] at h
      cases h
  | some m =>
      rw [hm] at h
      cases m with
      | branch op =>
          simp only [Opcode.bare?, appendBranchTo] at h
          cases htarget : Text.unsigned? (operand cs) with
          | some target =>
              -- A numeral is an offset, and no name: so nothing is recorded.
              have hno : ¬isName (operand cs) = true := by
                intro hname
                rw [unsigned?_of_isName hname] at htarget
                cases htarget
              rw [htarget] at h
              cases h
              exact .inl ⟨_, rfl, if_neg hno⟩
          | none =>
              rw [htarget] at h
              simp only at h
              split at h
              · rename_i hname
                cases h
                exact .inr ⟨op, _, rfl, if_pos hname⟩
              · cases h
      | push =>
          simp only [Opcode.bare?] at h
          split at h
          · cases h
            exact .inl ⟨_, rfl, rfl⟩
          · cases h
      | memory op | call keeps =>
          simp only [Opcode.bare?] at h
          obtain ⟨a, -, rfl⟩ := Attempt.map_eq_ok h
          exact .inl ⟨_, rfl, rfl⟩
      | dup | ret | unary op | binary op =>
          simp only [Opcode.bare?] at h
          split at h
          · cases h
            exact .inl ⟨_, rfl, rfl⟩
          · cases h

theorem Draft.Accounts.instruction (h : d.Accounts names)
    (hd : instruction t verbs d line cs = .ok d') : d'.Accounts (names ++ (branchName? cs).toList) := by
  rcases instruction_appends hd with ⟨o, rfl, hnone⟩ | ⟨op, name, rfl, hsome⟩
  · rw [hnone, Option.toList_none, List.append_nil]
    exact h.append o
  · rw [hsome]
    exact h.appendBranch op name

/-- **The step.** A statement is taken: its label, and its instruction if it has one. -/
theorem Draft.Accounts.takeStatement {s : Statement} (h : d.Accounts names)
    (hd : takeStatement t verbs d line s = .ok d') :
    d'.Accounts (names ++ (branchName? s.body).toList) := by
  unfold Assembly.takeStatement at hd
  split at hd
  · exact h.instruction hd
  · obtain ⟨d₁, hdefine, hd⟩ := Attempt.bind_eq_ok hd
    have h₁ := h.define hdefine
    split at hd
    · rename_i hempty
      cases hd
      have hnone : branchName? [] = none := rfl
      rw [List.isEmpty_iff.1 hempty, hnone, Option.toList_none, List.append_nil]
      exact h₁
    · exact h₁.instruction hd

theorem isCode_of_statement? {l : Line} : isCode l.text = (statement? l).isSome := by
  unfold isCode statement?
  cases directive? l.text with
  | some r => rfl
  | none => cases splitLabel? l.text <;> rfl

theorem accounts_takeLine {l : Line} (h : p.draft.Accounts (branchNames lines))
    (hp : takeLine t verbs p l = .ok p') : p'.draft.Accounts (branchNames (lines ++ [l])) := by
  rw [branchNames_snoc]
  cases hs : statement? l with
  | some s =>
      rw [takeLine_of_statement? hs] at hp
      obtain ⟨d, hd, rfl⟩ := Attempt.map_eq_ok hp
      exact h.takeStatement hd
  | none =>
      have hcode : isCode l.text = false := by rw [isCode_of_statement?, hs]; rfl
      rw [((takeLine_of_not_isCode t verbs p hcode).1 p' hp).1]
      simpa using h

/-- **States on the way:** what assembly has made of the first lines of a source, up to any of them. -/
def Visits (source : String) (t : SymbolTable) (verbs : String → Option VerbId) (p : Progress) : Prop :=
  ∃ done rest, linesOf source = done ++ rest ∧ done.foldlM (takeLine t verbs) ⟨.empty, []⟩ = .ok p

/-- **The run.** All states on the way account for the names used so far. -/
theorem accounts_foldlM {done : List Line}
    (h : done.foldlM (takeLine t verbs) ⟨.empty, []⟩ = .ok p) :
    p.draft.Accounts (branchNames done) := by
  have hempty : Draft.Accounts (branchNames []) .empty := Draft.accounts_empty
  refine Attempt.foldlM_prefix (P := fun done p => p.draft.Accounts (branchNames done)) ?_ hempty h
  intro done l _ p p' hp hp'
  exact accounts_takeLine hp hp'

/-! ## Builders that know their labels -/

/-- The label of a name exists, so it is placed if it stands nowhere. -/
theorem Draft.Sound.exists_place (h : d.Sound) (name : String)
    (hnone : (d.labelNamed name).2.builder.position? (d.labelNamed name).1 = none) :
    ∃ b, (d.labelNamed name).2.builder.place (d.labelNamed name).1 = .ok b :=
  ⟨_, Builder.place_of_position? ((h.labelNamed name).allocated (d.lookup_labelNamed name)) hnone⟩

theorem position?_of_defined {n : String} (h : undefinedReference? d = none) (hn : n ∈ d.referenced) :
    (d.position? n).isSome = true := by
  have hall := List.find?_eq_none.1 h n (List.mem_reverse.2 hn)
  simpa [Option.isNone_iff_eq_none, Option.isSome_iff_ne_none] using hall

/-- A builder whose names all stand somewhere can only find that an address is too large. -/
theorem Draft.Accounts.finish_eq_error (h : d.Accounts names) (hdefined : undefinedReference? d = none)
    {e : AssemblyError} (he : d.builder.finish = .error e) : ∃ address, e = .addressOverflow address := by
  unfold Builder.finish at he
  split at he
  · cases he
    exact ⟨_, rfl⟩
  · -- The operand that cannot be written belongs to a name that was used, and that name stands somewhere.
    obtain ⟨before, f, after, bytes, hsplit, -, hpatch⟩ :=
      Attempt.foldlM_eq_error (Attempt.map_eq_error he)
    obtain ⟨n, hn, hl⟩ := h.fixups f (by rw [hsplit]; simp)
    have hposition := position?_of_defined hdefined hn
    rw [Draft.position?, hl, Option.bind_some] at hposition
    obtain ⟨target, htarget⟩ := Option.isSome_iff_exists.1 hposition
    rw [Builder.patch, htarget] at hpatch
    simp only at hpatch
    split at hpatch
    · cases hpatch
    · cases hpatch
      exact ⟨target, rfl⟩

/-- **Consistent drafts:** a name that was used is found in the table, a label that stands nowhere can be
placed, and if all names that were used stand somewhere, the builder misses no label either. -/
structure Draft.Consistent (d : Draft) : Prop where
  lookup : ∀ n ∈ d.referenced, ∃ l, d.labels.lookup n = some l
  place : ∀ n, (d.labelNamed n).2.builder.position? (d.labelNamed n).1 = none →
    ∃ b, (d.labelNamed n).2.builder.place (d.labelNamed n).1 = .ok b
  finish : undefinedReference? d = none → ∀ e, d.builder.finish = .error e →
    ∃ address, e = .addressOverflow address

theorem Draft.Accounts.consistent (h : d.Accounts names) : d.Consistent :=
  ⟨h.known, h.sound.exists_place, fun hdefined _ he => h.finish_eq_error hdefined he⟩

/-! ## What is not reported -/

section Errors

theorem memoryOperand_ne : memoryOperand t line cs ≠ .error (.unresolvedLabel n) := by
  unfold memoryOperand
  split
  · nofun
  · split
    · nofun
    · split <;> nofun

theorem verbOperand_ne : verbOperand verbs line cs ≠ .error (.unresolvedLabel n) := by
  unfold verbOperand
  split
  · nofun
  · split <;> nofun
  · split <;> nofun

theorem appendBranchTo_ne {op : BranchOp} : appendBranchTo d line op cs ≠ .error (.unresolvedLabel n) := by
  unfold appendBranchTo
  split
  · nofun
  · split <;> nofun

/-- No instruction is refused for a label. -/
theorem instruction_ne : instruction t verbs d line cs ≠ .error (.unresolvedLabel n) := by
  rw [instruction_eq]
  split
  · nofun
  · split
    · split <;> nofun
    · split
      · exact fun h => memoryOperand_ne (Attempt.map_eq_error h)
      · exact appendBranchTo_ne
      · exact fun h => verbOperand_ne (Attempt.map_eq_error h)
      · split <;> nofun

theorem define_ne (h : d.Sound) : d.define line name ≠ .error (.unresolvedLabel n) := by
  unfold Draft.define
  simp only
  split
  · nofun
  · rename_i hnone
    obtain ⟨b, hb⟩ := h.exists_place name (by simpa using hnone)
    rw [hb]
    nofun

/-- No line is refused for a label that stands nowhere: it may still be defined. -/
theorem takeLine_ne {l : Line} (h : p.draft.Sound) :
    takeLine t verbs p l ≠ .error (.unresolvedLabel n) := by
  cases hs : statement? l with
  | some s =>
      rw [takeLine_of_statement? hs]
      intro herror
      have herror := Attempt.map_eq_error herror
      unfold takeStatement at herror
      split at herror
      · exact instruction_ne herror
      · rcases Attempt.bind_eq_error herror with hdefine | ⟨d₁, -, hrest⟩
        · exact define_ne h hdefine
        · split at hrest
          · cases hrest
          · exact instruction_ne hrest
  | none =>
      have hcode := isCode_of_statement? (l := l)
      rw [hs] at hcode
      unfold takeLine
      split
      · rename_i hdirective
        rw [isCode, hdirective] at hcode
        cases hcode
      · split
        · simp
        · split
          · simp only
            split <;> simp
          · simp

theorem declaredDefault_ne : declaredDefault line cs ≠ .error (.unresolvedLabel n) := by
  unfold declaredDefault
  split
  · nofun
  · simp only
    split <;> nofun
  · nofun

theorem declareSymbol_ne : declareSymbol t line cs ≠ .error (.unresolvedLabel n) := by
  unfold declareSymbol
  simp only [bind, Except.bind, throw, throwThe, MonadExceptOf.throw]
  split
  · nofun
  · split
    · nofun
    · split
      · rename_i e he
        rintro ⟨⟩
        exact declaredDefault_ne he
      · intro h
        rcases SymbolTable.insert_eq_error_iff.1 h with ⟨-, h⟩ | ⟨-, -, h⟩ <;> cases h

theorem declareSymbols_ne : declareSymbols lines ≠ .error (.unresolvedLabel n) := by
  intro h
  obtain ⟨-, l, -, t, -, -, hstep⟩ := Attempt.foldlM_eq_error h
  split at hstep
  · split at hstep
    · exact declareSymbol_ne hstep
    · cases hstep
  · cases hstep

/-- A message is refused for its label only. -/
theorem position?_of_exportMessage {x : ExportTable} {message : Nat × String}
    (h : exportMessage d x message = .error (.unresolvedLabel n)) :
    n = message.2 ∧ d.position? n = none := by
  obtain ⟨line, name⟩ := message
  unfold exportMessage at h
  simp only at h
  cases hposition : d.position? name with
  | none =>
      rw [hposition] at h
      cases h
      exact ⟨rfl, hposition⟩
  | some offset =>
      rw [hposition] at h
      by_cases hknown : (x.offset? name).isSome
      · simp only [ExportTable.insert, if_pos hknown] at h
        cases h
      · simp only [ExportTable.insert, if_neg hknown] at h
        cases h

end Errors

/-! ## The whole source -/

section Whole

variable {source : String}

theorem defines_eq (h : p.Follows t verbs lines) (name : String) :
    (p.draft.position? name).isNone = !defines lines name := by
  obtain ⟨items, hdraft⟩ := h.draft
  rw [hdraft.position, Option.isNone_map, isNone_instructionsBefore?]
  rfl

/-- Once all lines are taken, the first name of a branch that no line defines is looked for. -/
theorem undefinedReference?_eq (h : (linesOf source).foldlM (takeLine t verbs) ⟨.empty, []⟩ = .ok p) :
    undefinedReference? p.draft =
      (branchNames (linesOf source)).find? fun name => !defines (linesOf source) name := by
  unfold undefinedReference?
  rw [(accounts_foldlM h).referenced]
  simp only [defines_eq (follows_foldlM h)]

/-- Messages that were taken have names. -/
theorem isName_of_mem_messageNames
    (h : (linesOf source).foldlM (takeLine t verbs) ⟨.empty, []⟩ = .ok p)
    (hname : name ∈ messageNames (linesOf source)) : isName name.toList = true := by
  obtain ⟨rest, hrest, rfl⟩ := List.mem_map.1 hname
  obtain ⟨l, hl, hmessage⟩ := List.mem_filterMap.1 hrest
  have hdirects := (foldlM_takeLine_iff.1 ⟨p, h, rfl⟩).2 l.text (List.mem_map_of_mem hl)
  unfold isCode at hdirects
  cases hdirective : directive? l.text with
  | none =>
      rw [hdirective] at hmessage
      cases hmessage
  | some r =>
      obtain ⟨keyword, rest'⟩ := r
      rw [hdirective] at hmessage hdirects
      simp only [Option.ite_none_right_eq_some, Option.some.injEq] at hmessage
      obtain ⟨rfl, rfl⟩ := hmessage
      obtain ⟨_, _, heq, hcases⟩ := hdirects rfl
      rw [hdirective] at heq
      cases heq
      rw [String.toList_ofList]
      rcases hcases with hsymbol | ⟨-, hisName⟩
      · exact absurd hsymbol (by decide)
      · exact hisName

/-- What is reported as unresolved is. -/
theorem unresolved_of_assemble (h : assemble name source verbs = .error (.unresolvedLabel n)) :
    Unresolved (linesOf source) n := by
  unfold assemble at h
  -- Only the check of the references and the messages report a name; what is done before and after does not.
  rcases Attempt.bind_eq_error h with hsymbols | ⟨t, hsymbols, h⟩
  · exact absurd hsymbols declareSymbols_ne
  rcases Attempt.bind_eq_error h with hlines | ⟨p, hlines, h⟩
  · obtain ⟨before, l, after, p, -, hbefore, hl⟩ := Attempt.foldlM_eq_error hlines
    exact absurd hl (takeLine_ne (accounts_foldlM hbefore).sound)
  split at h
  · rename_i label hlabel
    cases h
    rw [undefinedReference?_eq hlines] at hlabel
    have hmem := List.mem_of_find?_eq_some hlabel
    have hundefined := List.find?_some hlabel
    exact ⟨isName_of_mem_branchNames hmem, .inl hmem, by simpa using hundefined⟩
  · rename_i hdefined
    have hfollows := follows_foldlM hlines
    rcases Attempt.bind_eq_error h with hexports | ⟨exports, -, h⟩
    · obtain ⟨before, message, after, x, hsplit, -, hmessage⟩ := Attempt.foldlM_eq_error hexports
      obtain ⟨rfl, hposition⟩ := position?_of_exportMessage hmessage
      have hmem : message.2 ∈ messageNames (linesOf source) := by
        rw [← hfollows.messages, hsplit]
        simp
      have hundefined := defines_eq hfollows message.2
      rw [hposition] at hundefined
      exact ⟨isName_of_mem_messageNames hlines hmem, .inr hmem, by simpa using hundefined.symm⟩
    · rcases Attempt.bind_eq_error h with hfinish | ⟨program, -, h⟩
      · obtain ⟨address, heq⟩ := (accounts_foldlM hlines).finish_eq_error hdefined hfinish
        cases heq
      · cases h

/-- A source with an unresolved name does not assemble. -/
theorem Unresolved.not_ok {script : Script} (h : Unresolved (linesOf source) n) :
    assemble name source verbs ≠ .ok script := by
  intro hok
  obtain ⟨p, hstages⟩ := assemble_eq_ok.1 hok
  have hfollows := follows_foldlM hstages.lines
  have hposition := defines_eq hfollows n
  rw [h.undefined] at hposition
  rcases h.used with hbranch | hmessage
  · have hdefined := hstages.defined
    rw [undefinedReference?_eq hstages.lines] at hdefined
    have hn := List.find?_eq_none.1 hdefined n hbranch
    rw [h.undefined] at hn
    exact hn rfl
  · rw [← hfollows.messages] at hmessage
    obtain ⟨message, hmem, rfl⟩ := List.mem_map.1 hmessage
    have hexported := (perm_exportMessage hstages.exports).mem_iff.2
      (List.mem_map.2 ⟨message, hmem, rfl⟩)
    obtain ⟨entry, -, heq⟩ := List.mem_map.1 hexported
    rw [← (Prod.mk.inj heq).2] at hposition
    cases hposition

end Whole

end Assembly

open Assembly

/-- **Unresolved labels are reported** by their names in the source, for any source and any verbs. Every draft on
the way is consistent: no label is missed in the table of names, by placing, or by the builder that finishes.
What is reported as unresolved is a name that is used and nowhere defined, and a source with such a name never
assembles: if its lines can all be taken, the first such operand of a branch is what is reported. -/
theorem unresolved_reported (name source : String) (verbs : String → Option VerbId) :
    (∀ t p, Visits source t verbs p → p.draft.Consistent) ∧
      (∀ n, assemble name source verbs = .error (.unresolvedLabel n) → Unresolved (linesOf source) n) ∧
      (∀ n, Unresolved (linesOf source) n → ∀ script, assemble name source verbs ≠ .ok script) ∧
      ∀ t p, declareSymbols (linesOf source) = .ok t →
        (linesOf source).foldlM (takeLine t verbs) ⟨.empty, []⟩ = .ok p →
        ∀ n, (branchNames (linesOf source)).find? (fun n => !defines (linesOf source) n) = some n →
          assemble name source verbs = .error (.unresolvedLabel n) := by
  refine ⟨?_, fun n h => unresolved_of_assemble h, fun n h script => h.not_ok, ?_⟩
  · rintro t p ⟨done, rest, -, hdone⟩
    exact (accounts_foldlM hdone).consistent
  · intro t p hsymbols hlines n hn
    have hundefined := undefinedReference?_eq hlines
    rw [hn] at hundefined
    unfold assemble
    simp only [hsymbols, bind, Except.bind, hlines, hundefined]
    rfl

/-- A branch and a message may both name what is nowhere; the branch is reported, though it stands below. -/
theorem unresolved_reported_nowhere :
    assemble "bad" ".message ghost\njmp nowhere\nret\n" (fun _ => none) =
        .error (.unresolvedLabel "nowhere") ∧
      Unresolved (linesOf ".message ghost\njmp nowhere\nret\n") "nowhere" := by
  have h : assemble "bad" ".message ghost\njmp nowhere\nret\n" (fun _ => none) =
      .error (.unresolvedLabel "nowhere") := by
    decide +kernel
  obtain ⟨-, hreported, -, -⟩ := unresolved_reported "bad" ".message ghost\njmp nowhere\nret\n" fun _ => none
  exact ⟨h, hreported _ h⟩

end CogMachine
