import CogMachine.Proofs.Moving
import CogMachine.Proofs.Safety

/-!
# Drafts of edited sources

A source is edited by taking out the instructions of calls; their labels stay. The edited source may also be
assembled for a host with other verb ids. Here the drafts of both are compared while they take their lines.

- `Draft.Recoded` is what two drafts have in common: the items of the second are what is left of those of the
  first, and its labels stand where those of the first go.
- `Stays` and `LeftOut` tell the texts that stay and those that do not; `Edited` is the relation between
  the lines of the two sources.
- `Progress.Pairs.kept`, `Progress.Pairs.label` and `Progress.Pairs.dropped` are the steps: a line that stays,
  one of which only the label stays, and one that is dropped.
-/

namespace CogMachine

/-! ## What was appended -/

namespace Recoding

variable {r : Recoding} {items : List Appended}

/-- What an item becomes. Branches to labels go where the labels go. -/
def appended? (r : Recoding) : Appended → Option Appended
  | .opcode o => (r.opcode? id o).map .opcode
  | .branch op l => some (.branch op l)

theorem map_placeholder_filterMap (r : Recoding) (items : List Appended) :
    (items.filterMap r.appended?).map Appended.placeholder =
      (items.map Appended.placeholder).filterMap (r.opcode? id) := by
  rw [List.map_filterMap, List.filterMap_map]
  apply List.filterMap_congr
  intro item _
  cases item with
  | opcode o =>
      show Option.map Appended.placeholder ((r.opcode? id o).map .opcode) = r.opcode? id o
      cases r.opcode? id o <;> rfl
  | branch op l => rfl

theorem sum_length (items : List Appended) :
    (items.map Appended.length).sum = extent (items.map Appended.placeholder) := by
  rw [extent, List.map_map]
  rfl

end Recoding

/-- A label that exists and stands nowhere can be placed. -/
theorem Builder.place_of_position? {b : Builder} {l : Label} (hl : l.number < b.labels.size)
    (h : b.position? l = none) :
    b.place l = .ok { b with labels := b.labels.setIfInBounds l.number (some b.offset) } := by
  unfold Builder.position? at h
  unfold Builder.place
  rw [Array.getElem?_eq_getElem hl] at h ⊢
  cases hfound : b.labels[l.number] with
  | none => rfl
  | some n =>
      rw [hfound] at h
      cases h

namespace Assembly

variable {r : Recoding} {verbs verbs' : String → Option VerbId} {t : SymbolTable}
variable {items : List Appended} {d d' : Draft}

/-! ## Drafts side by side -/

/-- **Drafts of a source and of the edited one.** They know the same labels under the same numbers, and
the labels of the second stand where those of the first go. -/
structure Draft.Recoded (r : Recoding) (items : List Appended) (d d' : Draft) : Prop where
  records : d.builder.Records items
  recoded : d'.builder.Records (items.filterMap r.appended?)
  labels : d'.labels = d.labels
  referenced : d'.referenced = d.referenced
  size : d'.builder.labels.size = d.builder.labels.size
  position : ∀ l, d'.builder.position? l =
    (d.builder.position? l).map (r.relocate (items.map Appended.placeholder))
  bound : ∀ l n, d.builder.position? l = some n → n ≤ extent (items.map Appended.placeholder)
  labelled : ∀ o, .opcode o ∈ items → o.target? = none

namespace Draft.Recoded

theorem empty (r : Recoding) : Draft.Recoded r [] .empty .empty where
  records := .empty
  recoded := .empty
  labels := rfl
  referenced := rfl
  size := rfl
  position _ := rfl
  bound _ _ h := by cases h
  labelled _ h := by cases h

theorem offset_eq (h : d.Recoded r items d') :
    d.builder.offset = extent (items.map Appended.placeholder) ∧
      d'.builder.offset = r.relocate (items.map Appended.placeholder) d.builder.offset := by
  have hoffset : d.builder.offset = extent (items.map Appended.placeholder) := by
    rw [h.records.offset_eq, Recoding.sum_length]
  refine ⟨hoffset, ?_⟩
  have hend := r.relocate_append (items.map Appended.placeholder) [] id
  rw [List.append_nil] at hend
  rw [h.recoded.offset_eq, Recoding.sum_length, Recoding.map_placeholder_filterMap, hoffset, hend]

/-- Positions stay, in both drafts, when an item is appended. -/
theorem position_append (h : d.Recoded r items d') (item : Appended) (l : Label) :
    d'.builder.position? l =
      (d.builder.position? l).map (r.relocate ((items ++ [item]).map Appended.placeholder)) := by
  rw [h.position]
  cases hl : d.builder.position? l with
  | none => rfl
  | some n =>
      rw [List.map_append, Option.map_some, Option.map_some,
        r.relocate_append_of_le _ (h.bound l n hl)]

theorem bound_append (h : d.Recoded r items d') (item : Appended) (l : Label) (n : Nat)
    (hl : d.builder.position? l = some n) :
    n ≤ extent ((items ++ [item]).map Appended.placeholder) := by
  rw [List.map_append, extent_append]
  exact Nat.le_add_right_of_le (h.bound l n hl)

/-- An opcode without a target is appended on both sides, if it stays. -/
theorem append (h : d.Recoded r items d') {o o' : Opcode} (ho : r.opcode? id o = some o')
    (htarget : o.target? = none) :
    (d.append o).Recoded r (items ++ [.opcode o]) (d'.append o') where
  records := h.records.append o
  recoded := by
    rw [List.filterMap_append, List.filterMap_cons_some
      (show r.appended? (.opcode o) = some (.opcode o') by rw [Recoding.appended?, ho]; rfl),
      List.filterMap_nil]
    exact h.recoded.append o'
  labels := h.labels
  referenced := h.referenced
  size := h.size
  position := h.position_append (.opcode o)
  bound := h.bound_append (.opcode o)
  labelled p hp := by
    rcases List.mem_append.1 hp with hp | hp
    · exact h.labelled p hp
    · obtain rfl : p = o := by simpa using hp
      exact htarget

/-- A call that is left out is appended on one side only. -/
theorem leaveOut (h : d.Recoded r items d') {keeps : Bool} {verb : VerbId}
    (hnone : r.call? keeps verb = none) :
    (d.append (.call keeps verb)).Recoded r (items ++ [.opcode (.call keeps verb)]) d' where
  records := h.records.append _
  recoded := by
    rw [List.filterMap_append, List.filterMap_cons_none
      (show r.appended? (.opcode (.call keeps verb)) = none by
        rw [Recoding.appended?, Recoding.opcode?, hnone]; rfl),
      List.filterMap_nil, List.append_nil]
    exact h.recoded
  labels := h.labels
  referenced := h.referenced
  size := h.size
  position := h.position_append _
  bound := h.bound_append _
  labelled p hp := by
    rcases List.mem_append.1 hp with hp | hp
    · exact h.labelled p hp
    · obtain rfl : p = .call keeps verb := by simpa using hp
      rfl

/-- The same label is asked for on both sides. -/
theorem labelNamed (h : d.Recoded r items d') (name : String) :
    (d'.labelNamed name).1 = (d.labelNamed name).1 ∧
      (d.labelNamed name).2.Recoded r items (d'.labelNamed name).2 := by
  rcases d.labelNamed_cases name with ⟨l, hl, heq⟩ | ⟨hnone, heq⟩
  · have heq' : d'.labelNamed name = (l, d') := by
      rw [Draft.labelNamed, h.labels, hl]
    rw [heq, heq']
    exact ⟨rfl, h⟩
  · have heq' : d'.labelNamed name = (d'.builder.allocate.1,
        { d' with
          builder := d'.builder.allocate.2
          labels := (name, d'.builder.allocate.1) :: d'.labels }) := by
      rw [Draft.labelNamed, h.labels, hnone]
    have hfirst : d'.builder.allocate.1 = d.builder.allocate.1 := by
      show Label.mk _ = Label.mk _
      rw [h.size]
    rw [heq, heq']
    refine ⟨hfirst, h.records.allocate, h.recoded.allocate, ?_, h.referenced, ?_, ?_, ?_, h.labelled⟩
    · simp only [hfirst, h.labels]
    · show (d'.builder.labels.push none).size = (d.builder.labels.push none).size
      rw [Array.size_push, Array.size_push, h.size]
    · intro l
      show d'.builder.allocate.2.position? l = (d.builder.allocate.2.position? l).map _
      rw [Builder.position?_allocate, Builder.position?_allocate]
      exact h.position l
    · intro l n hn
      change d.builder.allocate.2.position? l = some n at hn
      rw [Builder.position?_allocate] at hn
      exact h.bound l n hn

/-- A branch to a label is appended on both sides. -/
theorem appendBranch (h : d.Recoded r items d') (op : BranchOp) (name : String) :
    (d.appendBranch op name).Recoded r (items ++ [.branch op (d.labelNamed name).1])
      (d'.appendBranch op name) := by
  obtain ⟨hlabel, hnamed⟩ := h.labelNamed name
  refine ⟨?_, ?_, hnamed.labels, ?_, hnamed.size, ?_, ?_, ?_⟩
  · exact hnamed.records.appendBranch op _
  · rw [List.filterMap_append, List.filterMap_cons_some
      (show r.appended? (.branch op _) = some (.branch op _) from rfl), List.filterMap_nil, ← hlabel]
    exact hnamed.recoded.appendBranch op _
  · exact congrArg (name :: ·) hnamed.referenced
  · exact hnamed.position_append _
  · exact hnamed.bound_append _
  · intro o ho
    rcases List.mem_append.1 ho with ho | ho
    · exact h.labelled o ho
    · simp at ho

/-- A label is defined on both sides. -/
theorem define (h : d.Recoded r items d') {line : Nat} {name : String} {d₁ : Draft}
    (hd : d.define line name = .ok d₁) (line' : Nat) :
    ∃ d₁', d'.define line' name = .ok d₁' ∧ d₁.Recoded r items d₁' := by
  obtain ⟨hlabel, hnamed⟩ := h.labelNamed name
  obtain ⟨builder, hplace, rfl⟩ := Draft.define_cases hd
  obtain ⟨hlt, hnone, hbuilder⟩ := Builder.place_eq_ok hplace
  have hnone' : (d'.labelNamed name).2.builder.position? (d'.labelNamed name).1 = none := by
    rw [hnamed.position, hlabel, hnone]
    rfl
  have hlt' : (d'.labelNamed name).1.number < (d'.labelNamed name).2.builder.labels.size := by
    rw [hlabel, hnamed.size]
    exact hlt
  obtain ⟨builder', hplace'⟩ : ∃ builder', (d'.labelNamed name).2.builder.place
      (d'.labelNamed name).1 = .ok builder' := ⟨_, Builder.place_of_position? hlt' hnone'⟩
  refine ⟨{ (d'.labelNamed name).2 with builder := builder' }, ?_, ?_⟩
  · unfold Draft.define
    simp only [hnone', Option.isSome_none, Bool.false_eq_true, if_false, hplace']
    rfl
  · obtain ⟨hoffset, hoffset'⟩ := hnamed.offset_eq
    refine ⟨hnamed.records.place hplace, hnamed.recoded.place hplace', hnamed.labels, hnamed.referenced,
      ?_, ?_, ?_, h.labelled⟩
    · obtain ⟨-, -, hbuilder'⟩ := Builder.place_eq_ok hplace'
      rw [hbuilder, hbuilder']
      simp only [Array.size_setIfInBounds]
      exact hnamed.size
    · intro l
      show builder'.position? l = (builder.position? l).map _
      rw [Builder.position?_of_place hplace', Builder.position?_of_place hplace, hlabel]
      by_cases hl : l = (d.labelNamed name).1
      · rw [if_pos hl, if_pos hl, hoffset']
        rfl
      · rw [if_neg hl, if_neg hl]
        exact hnamed.position l
    · intro l n hn
      change builder.position? l = some n at hn
      rw [Builder.position?_of_place hplace] at hn
      by_cases hl : l = (d.labelNamed name).1
      · rw [if_pos hl] at hn
        cases hn
        exact Nat.le_of_eq hoffset
      · rw [if_neg hl] at hn
        exact hnamed.bound l n hn

end Draft.Recoded

/-! ## Texts that stay -/

/-- **A text that stays:** if it calls a verb, then the call stays, and in the edited source the text names
the verb that is called instead. -/
def Stays (r : Recoding) (verbs verbs' : String → Option VerbId) (cs : List Char) : Prop :=
  ∀ keeps verb, mnemonic? cs = some (.call keeps) → verb? verbs (operand cs) = some verb →
    ∃ verb', r.call? keeps verb = some verb' ∧ verb? verbs' (operand cs) = some verb'

/-- **A text that is left out:** a call that is. -/
def LeftOut (r : Recoding) (verbs : String → Option VerbId) (cs : List Char) : Prop :=
  ∃ keeps verb, mnemonic? cs = some (.call keeps) ∧ verb? verbs (operand cs) = some verb ∧
    r.call? keeps verb = none

section Texts

variable {cs : List Char} {line : Nat} {d₁ : Draft} {address? : String → Option Nat}

theorem memoryOperand_line {a : Nat} (h : memoryOperand t line cs = .ok a) (line' : Nat) :
    memoryOperand t line' cs = .ok a := by
  unfold memoryOperand at h ⊢
  split at h
  · cases h
  · rename_i hne
    rw [if_neg hne]
    cases hn : Text.unsigned? cs with
    | some n =>
        rw [hn] at h
        exact h
    | none =>
        rw [hn] at h
        cases hs : t.get? (String.ofList cs) with
        | none =>
            simp only [hs] at h
            cases h
        | some s =>
            simp only [hs] at h ⊢
            exact h

/-- An operand that is not empty is the verb it names. -/
theorem verbOperand_of_verb? {verb : VerbId} (hne : cs ≠ []) (h : verb? verbs cs = some verb)
    (line : Nat) : verbOperand verbs line cs = .ok verb := by
  unfold verb? at h
  unfold verbOperand
  split at h
  · obtain ⟨n, hn, rfl⟩ := Option.map_eq_some_iff.1 h
    simp only [hn]
  · rename_i hname
    split
    · exact absurd rfl hne
    · exact absurd rfl (hname _)
    · rw [h]

theorem ne_nil_of_verbOperand {verb : VerbId} (h : verbOperand verbs line cs = .ok verb) :
    cs ≠ [] := by
  rintro rfl
  cases h

/-- What an instruction appends is told by its mnemonic and its operand. -/
theorem instruction_eq (t : SymbolTable) (verbs : String → Option VerbId) (d : Draft) (line : Nat)
    (cs : List Char) : instruction t verbs d line cs =
      match mnemonic? cs with
      | none => .error (.unknownMnemonic line (String.ofList ((Text.splitWord cs).1.map Char.toLower)))
      | some m =>
        match Opcode.bare? m with
        | some o =>
          if (operand cs).isEmpty then .ok (d.append o)
          else .error (.badOperand line
            s!"'{String.ofList ((Text.splitWord cs).1.map Char.toLower)}' takes no operand")
        | none =>
          match m with
          | .memory op => (memoryOperand t line (operand cs)).map fun a => d.append (.memory op a)
          | .branch op => appendBranchTo d line op (operand cs)
          | .call keeps =>
            (verbOperand verbs line (operand cs)).map fun v => d.append (.call keeps v)
          | _ =>
            match Value.ofText? (operand cs) with
            | some v => .ok (d.append (.push v))
            | none => .error (invalidLiteral line (operand cs)) := rfl

theorem denoted?_eq (address? : String → Option Nat) (verbs : String → Option VerbId)
    (offset? : String → Option Nat) (cs : List Char) : denoted? address? verbs offset? cs =
      match mnemonic? cs with
      | none => none
      | some .push => (Value.ofText? (operand cs)).map .push
      | some (.memory op) =>
        ((Text.unsigned? (operand cs)).or (address? (String.ofList (operand cs)))).map (.memory op)
      | some (.branch op) =>
        ((Text.unsigned? (operand cs)).or (offset? (String.ofList (operand cs)))).map (.branch op)
      | some (.call keeps) => (verb? verbs (operand cs)).map (.call keeps)
      | some bare => if (operand cs).isEmpty then Opcode.bare? bare else none := rfl

/-- **An instruction that stays** appends to any draft of the edited source what it appends to one of the
source: the opcode that is left of its own, or a branch to the same label. -/
theorem instruction_stays (ht : ∀ n, (t.get? n).map Symbol.address = address? n)
    (hstays : Stays r verbs verbs' cs)
    (hlabel : ∀ op, mnemonic? cs = some (.branch op) → isName (operand cs) = true)
    (hd : instruction t verbs d line cs = .ok d₁) :
    (∃ o o', d₁ = d.append o ∧ (∀ offset?, denoted? address? verbs offset? cs = some o) ∧
      r.opcode? id o = some o' ∧ o.target? = none ∧
      ∀ d' line', instruction t verbs' d' line' cs = .ok (d'.append o')) ∨
    (∃ op name, d₁ = d.appendBranch op name ∧
      (∀ offset?, denoted? address? verbs offset? cs = (offset? name).map (.branch op)) ∧
      ∀ d' line', instruction t verbs' d' line' cs = .ok (d'.appendBranch op name)) := by
  rw [instruction_eq] at hd
  simp only [instruction_eq, denoted?_eq]
  cases hm : mnemonic? cs with
  | none =>
      simp only [hm] at hd
      cases hd
  | some m =>
      simp only [hm] at hd ⊢
      cases m with
      | push =>
          simp only [Opcode.bare?] at hd ⊢
          cases hv : Value.ofText? (operand cs) with
          | none =>
              simp only [hv] at hd
              cases hd
          | some v =>
              simp only [hv] at hd ⊢
              cases hd
              exact .inl ⟨_, _, rfl, fun _ => rfl, rfl, rfl, fun _ _ => rfl⟩
      | memory op =>
          simp only [Opcode.bare?] at hd ⊢
          obtain ⟨a, ha, rfl⟩ := Attempt.map_eq_ok hd
          refine .inl ⟨_, .memory op a, rfl, fun _ => ?_, rfl, rfl, fun d' line' => ?_⟩
          · rw [Draft.address?_of_memoryOperand ht ha]
            rfl
          · rw [memoryOperand_line ha line']
            rfl
      | branch op =>
          have hname := hlabel op hm
          simp only [Opcode.bare?, appendBranchTo, unsigned?_of_isName hname, hname, if_true] at hd ⊢
          cases hd
          exact .inr ⟨_, _, rfl, fun _ => rfl, fun _ _ => rfl⟩
      | call keeps =>
          simp only [Opcode.bare?] at hd ⊢
          obtain ⟨verb, hverb, rfl⟩ := Attempt.map_eq_ok hd
          have hnamed := Draft.verb?_of_verbOperand hverb
          obtain ⟨verb', hcall, hverb'⟩ := hstays keeps verb hm hnamed
          refine .inl ⟨_, .call keeps verb', rfl, fun _ => ?_, ?_, rfl, fun d' line' => ?_⟩
          · rw [hnamed]
            rfl
          · rw [Recoding.opcode?, hcall]
            rfl
          · rw [verbOperand_of_verb? (ne_nil_of_verbOperand hverb) hverb' line']
            rfl
      | dup | ret | unary op | binary op =>
          simp only [Opcode.bare?] at hd ⊢
          split at hd
          · rename_i hempty
            cases hd
            exact .inl ⟨_, _, rfl, fun _ => if_pos hempty, rfl, rfl, fun _ _ => if_pos hempty⟩
          · cases hd

/-- **An instruction that is left out** appends a call that is. -/
theorem instruction_leftOut (hleft : LeftOut r verbs cs)
    (hd : instruction t verbs d line cs = .ok d₁) :
    ∃ keeps verb, d₁ = d.append (.call keeps verb) ∧ r.call? keeps verb = none ∧
      ∀ address? offset?, denoted? address? verbs offset? cs = some (.call keeps verb) := by
  obtain ⟨keeps, verb, hm, hverb, hnone⟩ := hleft
  rw [instruction_eq] at hd
  simp only [hm, Opcode.bare?] at hd
  obtain ⟨verb₁, hverb₁, rfl⟩ := Attempt.map_eq_ok hd
  rw [Draft.verb?_of_verbOperand hverb₁] at hverb
  cases hverb
  refine ⟨keeps, verb, rfl, hnone, fun _ _ => ?_⟩
  rw [denoted?_eq]
  simp only [hm, Draft.verb?_of_verbOperand hverb₁, Option.map_some]

end Texts

/-! ## Lines -/

/-- **The edited source:** lines that stay, lines of which only the label stays, and lines that are
dropped. -/
inductive Edited (r : Recoding) (verbs verbs' : String → Option VerbId) : List Line → List Line → Prop where
  | nil : Edited r verbs verbs' [] []
  | kept {line line' : Line} {lines lines' : List Line} (htext : line'.text = line.text)
      (hstays : ∀ s, statement? line = some s → Stays r verbs verbs' s.body)
      (h : Edited r verbs verbs' lines lines') : Edited r verbs verbs' (line :: lines) (line' :: lines')
  | label {line line' : Line} {lines lines' : List Line} {name : String} {cs : List Char}
      (hs : statement? line = some ⟨some name, cs⟩) (hcs : LeftOut r verbs cs)
      (hs' : statement? line' = some ⟨some name, []⟩)
      (h : Edited r verbs verbs' lines lines') : Edited r verbs verbs' (line :: lines) (line' :: lines')
  | dropped {line : Line} {lines lines' : List Line} {cs : List Char}
      (hs : statement? line = some ⟨none, cs⟩) (hcs : LeftOut r verbs cs)
      (h : Edited r verbs verbs' lines lines') : Edited r verbs verbs' (line :: lines) lines'

/-- Taking a statement. -/
def takeStatement (t : SymbolTable) (verbs : String → Option VerbId) (d : Draft) (line : Nat)
    (s : Statement) : Except AssemblyError Draft :=
  match s.label with
  | none => instruction t verbs d line s.body
  | some name => do
    let d ← d.define line name
    if s.body.isEmpty then return d else instruction t verbs d line s.body

theorem directive?_of_statement? {line : Line} {s : Statement} (hs : statement? line = some s) :
    directive? line.text = none := by
  unfold statement? at hs
  cases hdirective : directive? line.text with
  | none => rfl
  | some directive =>
      rw [hdirective] at hs
      cases hs

/-- A line of code takes its statement. -/
theorem takeLine_of_statement? {line : Line} {s : Statement} (hs : statement? line = some s)
    (p : Progress) : takeLine t verbs p line =
      (takeStatement t verbs p.draft line.number s).map fun d => { p with draft := d } := by
  have hdirective := directive?_of_statement? hs
  unfold statement? at hs
  unfold takeLine codeLine
  rw [hdirective] at hs
  simp only [hdirective]
  cases hlabel : splitLabel? line.text with
  | none =>
      rw [hlabel] at hs
      cases hs
      rfl
  | some cut =>
      rw [hlabel] at hs
      cases hs
      rfl

/-! ## Pairs of drafts -/

section Pairs

variable {address? : String → Option Nat} {ss : List Statement} {d₁ : Draft} {line : Nat}

/-- **A pair of drafts:** the first has the statements taken so far, the second what is left of them. -/
structure Draft.Pairs (r : Recoding) (address? : String → Option Nat) (verbs : String → Option VerbId)
    (ss : List Statement) (items : List Appended) (d d' : Draft) : Prop where
  holds : d.Holds address? verbs ss items
  recoded : d.Recoded r items d'

/-- An instruction that stays is taken on both sides. -/
theorem Draft.Pairs.stays {l : Option String} {cs : List Char}
    (ht : ∀ n, (t.get? n).map Symbol.address = address? n)
    (h : Pairs r address? verbs (ss ++ [⟨l, []⟩]) items d d') (hcs : cs ≠ [])
    (hstays : Stays r verbs verbs' cs)
    (hlabel : ∀ op, mnemonic? cs = some (.branch op) → isName (operand cs) = true)
    (hd : instruction t verbs d line cs = .ok d₁) (line' : Nat) :
    ∃ items₁ d₁', instruction t verbs' d' line' cs = .ok d₁' ∧
      Pairs r address? verbs (ss ++ [⟨l, cs⟩]) items₁ d₁ d₁' := by
  rcases instruction_stays ht hstays hlabel hd with
    ⟨o, o', rfl, hdenoted, hkept, htarget, hd'⟩ | ⟨op, name, rfl, hdenoted, hd'⟩
  · refine ⟨_, _, hd' d' line', ?_, h.recoded.append hkept htarget⟩
    exact h.holds.extend hcs ⟨h.holds.sound.allocated, h.holds.sound.injective⟩ (fun _ _ hn => hn)
      (h.holds.records.append o) (.complete hdenoted) fun _ => rfl
  · have hsound := h.holds.sound.labelNamed name
    refine ⟨_, _, hd' d' line', ?_, h.recoded.appendBranch op name⟩
    exact h.holds.extend hcs ⟨hsound.allocated, hsound.injective⟩ (d.extends_labelNamed name)
      ((Draft.records_labelNamed h.holds.records name).appendBranch op _)
      (.branch (d.lookup_labelNamed name) hdenoted) (d.position?_labelNamed name)

/-- An instruction that is left out is taken on the first side only. -/
theorem Draft.Pairs.leaveOut {l : Option String} {cs : List Char}
    (h : Pairs r address? verbs (ss ++ [⟨l, []⟩]) items d d') (hleft : LeftOut r verbs cs)
    (hd : instruction t verbs d line cs = .ok d₁) :
    ∃ items₁, Pairs r address? verbs (ss ++ [⟨l, cs⟩]) items₁ d₁ d' := by
  have hcs : cs ≠ [] := by
    rintro rfl
    obtain ⟨keeps, verb, hm, -, -⟩ := hleft
    cases hm
  obtain ⟨keeps, verb, rfl, hnone, hdenoted⟩ := instruction_leftOut hleft hd
  refine ⟨_, ?_, h.recoded.leaveOut hnone⟩
  exact h.holds.extend hcs ⟨h.holds.sound.allocated, h.holds.sound.injective⟩ (fun _ _ hn => hn)
    (h.holds.records.append _) (.complete (hdenoted address?)) fun _ => rfl

/-- A label is defined on both sides. -/
theorem Draft.Pairs.define {name : String} (h : Pairs r address? verbs ss items d d')
    (hd : d.define line name = .ok d₁) (line' : Nat) :
    ∃ d₁', d'.define line' name = .ok d₁' ∧
      Pairs r address? verbs (ss ++ [⟨some name, []⟩]) items d₁ d₁' := by
  obtain ⟨d₁', hd', hrecoded⟩ := h.recoded.define hd line'
  exact ⟨d₁', hd', h.holds.define hd, hrecoded⟩

theorem Draft.Pairs.blank (h : Pairs r address? verbs ss items d d') :
    Pairs r address? verbs (ss ++ [⟨none, []⟩]) items d d' := ⟨h.holds.blank, h.recoded⟩

/-- **A statement that stays** is taken on both sides. -/
theorem Draft.Pairs.takeStatement {s : Statement}
    (ht : ∀ n, (t.get? n).map Symbol.address = address? n) (h : Pairs r address? verbs ss items d d')
    (hs : s.label = none → s.body ≠ []) (hstays : Stays r verbs verbs' s.body)
    (hlabel : ∀ op, mnemonic? s.body = some (.branch op) → isName (operand s.body) = true)
    (hd : takeStatement t verbs d line s = .ok d₁) (line' : Nat) :
    ∃ items₁ d₁', Assembly.takeStatement t verbs' d' line' s = .ok d₁' ∧
      Pairs r address? verbs (ss ++ [s]) items₁ d₁ d₁' := by
  obtain ⟨l, cs⟩ := s
  cases l with
  | none => exact h.blank.stays ht (hs rfl) hstays hlabel hd line'
  | some name =>
      obtain ⟨d₂, hdefine, hd⟩ := Attempt.bind_eq_ok hd
      obtain ⟨d₂', hdefine', h₂⟩ := h.define hdefine line'
      simp only [Assembly.takeStatement, hdefine', bind, Except.bind]
      cases cs with
      | nil =>
          cases hd
          exact ⟨items, d₂', rfl, h₂⟩
      | cons c cs => exact h₂.stays ht (List.cons_ne_nil c cs) hstays hlabel hd line'

end Pairs

/-! ## Lines side by side -/

/-- **What the two sides have in common** after some lines of the source. -/
structure Progress.Pairs (r : Recoding) (t : SymbolTable) (verbs : String → Option VerbId)
    (lines : List Line) (p p' : Progress) : Prop where
  draft : ∃ items, Draft.Pairs r (fun n => (t.get? n).map Symbol.address) verbs (statements lines) items
    p.draft p'.draft
  messages : p'.messages.map Prod.snd = p.messages.map Prod.snd

section Lines

variable {p p' p₁ : Progress} {line line' : Line} {done : List Line}

theorem body_ne_nil {s : Statement} (hs : statement? line = some s) (htext : line.text ≠ [])
    (hlabel : s.label = none) : s.body ≠ [] := by
  have hdirective := directive?_of_statement? hs
  unfold statement? at hs
  rw [hdirective] at hs
  simp only at hs
  split at hs
  · cases hs
    exact htext
  · cases hs
    cases hlabel

/-- **A directive** is taken whatever the verbs are. It changes no draft. -/
theorem takeLine_of_directive (verbs' : String → Option VerbId) (hs : statement? line = none)
    (htext : line'.text = line.text) (hp : takeLine t verbs p line = .ok p₁) :
    (p₁ = p ∧ ∀ p', takeLine t verbs' p' line' = .ok p') ∨
    ∃ name, p₁ = { p with messages := (line.number, name) :: p.messages } ∧
      ∀ p', takeLine t verbs' p' line' =
        .ok { p' with messages := (line'.number, name) :: p'.messages } := by
  unfold takeLine at hp ⊢
  rw [htext]
  cases hdirective : directive? line.text with
  | none =>
      -- Only a directive is no statement.
      unfold statement? at hs
      rw [hdirective] at hs
      simp only at hs
      split at hs <;> cases hs
  | some directive =>
      obtain ⟨keyword, rest⟩ := directive
      simp only [hdirective] at hp ⊢
      by_cases hsymbol : keyword = "symbol".toList
      · rw [if_pos hsymbol] at hp
        cases hp
        exact .inl ⟨rfl, fun _ => if_pos hsymbol⟩
      · rw [if_neg hsymbol] at hp
        by_cases hmessage : keyword = "message".toList
        · rw [if_pos hmessage] at hp
          split at hp
          · rename_i hname
            cases hp
            refine .inr ⟨_, rfl, fun p' => ?_⟩
            rw [if_neg hsymbol, if_pos hmessage, if_pos hname]
          · cases hp
        · rw [if_neg hmessage] at hp
          cases hp

/-- **A line that stays** is taken on both sides. -/
theorem Progress.Pairs.kept (h : p.Pairs r t verbs done p') (hline : line.text ≠ [])
    (htext : line'.text = line.text)
    (hstays : ∀ s, statement? line = some s → Stays r verbs verbs' s.body)
    (hlabel : ∀ s, statement? line = some s → ∀ op, mnemonic? s.body = some (.branch op) →
      isName (operand s.body) = true)
    (hp : takeLine t verbs p line = .ok p₁) :
    ∃ p₁', takeLine t verbs' p' line' = .ok p₁' ∧ p₁.Pairs r t verbs (done ++ [line]) p₁' := by
  obtain ⟨items, hdraft⟩ := h.draft
  have hstatement : statement? line' = statement? line := by
    unfold statement?
    rw [htext]
  have hstatements := statements_snoc done line
  cases hs : statement? line with
  | some s =>
      rw [takeLine_of_statement? hs] at hp
      rw [takeLine_of_statement? (hstatement.trans hs)]
      rw [hs, Option.toList_some] at hstatements
      obtain ⟨d₁, hd, rfl⟩ := Attempt.map_eq_ok hp
      obtain ⟨items₁, d₁', hd', h₁⟩ := hdraft.takeStatement (fun _ => rfl)
        (body_ne_nil hs hline) (hstays s hs) (hlabel s hs) hd line'.number
      rw [hd']
      exact ⟨_, rfl, ⟨items₁, hstatements ▸ h₁⟩, h.messages⟩
  | none =>
      rw [hs, Option.toList_none, List.append_nil] at hstatements
      rcases takeLine_of_directive verbs' hs htext hp with ⟨rfl, hp'⟩ | ⟨name, rfl, hp'⟩
      · exact ⟨p', hp' p', ⟨items, hstatements ▸ hdraft⟩, h.messages⟩
      · exact ⟨_, hp' p', ⟨items, hstatements ▸ hdraft⟩, congrArg (name :: ·) h.messages⟩

/-- **A line of which the label stays** is taken up to its instruction on the second side. -/
theorem Progress.Pairs.label {name : String} {cs : List Char} (h : p.Pairs r t verbs done p')
    (hs : statement? line = some ⟨some name, cs⟩) (hcs : LeftOut r verbs cs)
    (hs' : statement? line' = some ⟨some name, []⟩) (hp : takeLine t verbs p line = .ok p₁) :
    ∃ p₁', takeLine t verbs' p' line' = .ok p₁' ∧ p₁.Pairs r t verbs (done ++ [line]) p₁' := by
  obtain ⟨items, hdraft⟩ := h.draft
  rw [takeLine_of_statement? hs] at hp
  rw [takeLine_of_statement? hs']
  obtain ⟨d₁, hd, rfl⟩ := Attempt.map_eq_ok hp
  obtain ⟨d₂, hdefine, hd⟩ := Attempt.bind_eq_ok hd
  obtain ⟨d₂', hdefine', h₂⟩ := hdraft.define hdefine line'.number
  have hne : cs.isEmpty = false := by
    obtain ⟨keeps, verb, hm, -, -⟩ := hcs
    cases cs with
    | nil => cases hm
    | cons c cs => rfl
  simp only [hne, Bool.false_eq_true, if_false] at hd
  obtain ⟨items₁, h₁⟩ := h₂.leaveOut hcs hd
  refine ⟨{ p' with draft := d₂' }, ?_, ⟨items₁, ?_⟩, h.messages⟩
  · simp only [takeStatement, hdefine']
    rfl
  · rw [statements_snoc, hs]
    exact h₁

/-- **A line that is dropped** is taken on the first side only. -/
theorem Progress.Pairs.dropped {cs : List Char} (h : p.Pairs r t verbs done p')
    (hs : statement? line = some ⟨none, cs⟩) (hcs : LeftOut r verbs cs)
    (hp : takeLine t verbs p line = .ok p₁) : p₁.Pairs r t verbs (done ++ [line]) p' := by
  obtain ⟨items, hdraft⟩ := h.draft
  rw [takeLine_of_statement? hs] at hp
  obtain ⟨d₁, hd, rfl⟩ := Attempt.map_eq_ok hp
  obtain ⟨items₁, h₁⟩ := hdraft.blank.leaveOut hcs hd
  refine ⟨⟨items₁, ?_⟩, h.messages⟩
  rw [statements_snoc, hs]
  exact h₁

end Lines

end Assembly
end CogMachine
