import CogMachine.Proofs.Building
import CogMachine.Proofs.Source

/-!
# Drafts and the statements they hold

A draft grows statement by statement, and its table gives names to labels that may not stand anywhere
yet. `Draft.Holds` says what a draft has of the statements taken so far: an item for the text of each
instruction, and for each name the place that the statements give it. `Draft.Holds.codeLine` is the
step: one line of code keeps this up.
-/

namespace CogMachine.Assembly.Draft

variable {d d' : Draft} {name : String} {items : List Appended}

/-! ## The table of labels -/

/-- **A sound table:** its labels exist, and no two names share one. -/
structure Sound (d : Draft) : Prop where
  allocated : ∀ {n l}, d.labels.lookup n = some l → l.number < d.builder.labels.size
  injective : ∀ {m n l}, d.labels.lookup m = some l → d.labels.lookup n = some l → m = n

/-- A draft has all names of another, with the same labels. -/
def Extends (d' d : Draft) : Prop :=
  ∀ n l, d.labels.lookup n = some l → d'.labels.lookup n = some l

theorem lookup_cons_ite (labels : List (String × Label)) (l : Label) (n : String) :
    ((name, l) :: labels).lookup n = if n = name then some l else labels.lookup n := by
  rw [List.lookup_cons]
  by_cases h : n = name
  · simp [h]
  · rw [if_neg h, beq_false_of_ne h]

/-- Asking for the label of a name either finds it or allocates it. -/
theorem labelNamed_cases (d : Draft) (name : String) :
    (∃ l, d.labels.lookup name = some l ∧ d.labelNamed name = (l, d)) ∨
    (d.labels.lookup name = none ∧ d.labelNamed name =
      (d.builder.allocate.1,
        { d with
          builder := d.builder.allocate.2
          labels := (name, d.builder.allocate.1) :: d.labels })) := by
  unfold labelNamed
  cases h : d.labels.lookup name with
  | some l => exact Or.inl ⟨l, rfl, rfl⟩
  | none => exact Or.inr ⟨rfl, rfl⟩

theorem lookup_labelNamed (d : Draft) (name : String) :
    (d.labelNamed name).2.labels.lookup name = some (d.labelNamed name).1 := by
  rcases d.labelNamed_cases name with ⟨l, hl, h⟩ | ⟨-, h⟩
  · rw [h]
    exact hl
  · rw [h, lookup_cons_ite, if_pos rfl]

theorem extends_labelNamed (d : Draft) (name : String) : (d.labelNamed name).2.Extends d := by
  intro n l hn
  rcases d.labelNamed_cases name with ⟨_, -, h⟩ | ⟨hnone, h⟩
  · rw [h]
    exact hn
  · have hne : n ≠ name := by
      rintro rfl
      rw [hnone] at hn
      cases hn
    rw [h, lookup_cons_ite, if_neg hne]
    exact hn

theorem records_labelNamed (h : d.builder.Records items) (name : String) :
    (d.labelNamed name).2.builder.Records items := by
  rcases d.labelNamed_cases name with ⟨_, -, heq⟩ | ⟨-, heq⟩
  · rw [heq]
    exact h
  · rw [heq]
    exact h.allocate

/-- A label that is only named stands where it stood before. -/
theorem position?_labelNamed (d : Draft) (name n : String) :
    (d.labelNamed name).2.position? n = d.position? n := by
  rcases d.labelNamed_cases name with ⟨_, -, h⟩ | ⟨hnone, h⟩
  · rw [h]
  · rw [h]
    unfold position?
    rw [lookup_cons_ite]
    by_cases hn : n = name
    · rw [if_pos hn, hn, hnone]
      simp [Builder.position?, Builder.allocate]
    · rw [if_neg hn]
      cases d.labels.lookup n with
      | none => rfl
      | some l => exact d.builder.position?_allocate l

theorem Sound.labelNamed (h : d.Sound) (name : String) : (d.labelNamed name).2.Sound := by
  rcases d.labelNamed_cases name with ⟨_, -, heq⟩ | ⟨-, heq⟩
  · rw [heq]
    exact h
  · -- The new label has the first number that no other has.
    have hfresh : ∀ {n l}, d.labels.lookup n = some l → d.builder.allocate.1 ≠ l := by
      rintro n l hn rfl
      exact Nat.lt_irrefl _ (h.allocated hn)
    rw [heq]
    constructor
    · intro n l hn
      show l.number < (d.builder.labels.push none).size
      rw [lookup_cons_ite] at hn
      rw [Array.size_push]
      by_cases hname : n = name
      · rw [if_pos hname] at hn
        cases hn
        exact Nat.lt_succ_self _
      · rw [if_neg hname] at hn
        exact Nat.lt_succ_of_lt (h.allocated hn)
    · intro m n l hm hn
      rw [lookup_cons_ite] at hm hn
      by_cases hmn : m = name <;> by_cases hnn : n = name
      · rw [hmn, hnn]
      · rw [if_pos hmn] at hm
        rw [if_neg hnn] at hn
        exact absurd (Option.some.inj hm) (hfresh hn)
      · rw [if_neg hmn] at hm
        rw [if_pos hnn] at hn
        exact absurd (Option.some.inj hn) (hfresh hm)
      · rw [if_neg hmn] at hm
        rw [if_neg hnn] at hn
        exact h.injective hm hn

/-- **Definition** of a label: after its name has one, it is placed. -/
theorem define_cases {line : Nat} (h : d.define line name = .ok d') :
    ∃ builder, (d.labelNamed name).2.builder.place (d.labelNamed name).1 = .ok builder ∧
      d' = { (d.labelNamed name).2 with builder := builder } := by
  unfold define at h
  simp only at h
  split at h
  · cases h
  · obtain ⟨builder, hp, rfl⟩ := Attempt.map_eq_ok h
    exact ⟨builder, hp, rfl⟩

theorem Sound.define {line : Nat} (h : d.Sound) (hd : d.define line name = .ok d') : d'.Sound := by
  obtain ⟨builder, hp, rfl⟩ := define_cases hd
  obtain ⟨-, -, rfl⟩ := Builder.place_eq_ok hp
  have hsound := h.labelNamed name
  constructor
  · intro n l hn
    show l.number < (Array.setIfInBounds _ _ _).size
    rw [Array.size_setIfInBounds]
    exact hsound.allocated hn
  · exact hsound.injective

theorem extends_define {line : Nat} (hd : d.define line name = .ok d') : d'.Extends d := by
  obtain ⟨builder, -, rfl⟩ := define_cases hd
  exact d.extends_labelNamed name

theorem records_define {line : Nat} (h : d.builder.Records items)
    (hd : d.define line name = .ok d') : d'.builder.Records items := by
  obtain ⟨builder, hp, rfl⟩ := define_cases hd
  exact (records_labelNamed h name).place hp

/-- A name can be defined only where it stood nowhere, and then stands at the offset. The other names
have other labels, which stay. -/
theorem Sound.position?_define {line : Nat} (h : d.Sound) (hr : d.builder.Records items)
    (hd : d.define line name = .ok d') :
    d.position? name = none ∧
      ∀ n, d'.position? n = if n = name then some d.builder.offset else d.position? n := by
  obtain ⟨builder, hp, rfl⟩ := define_cases hd
  have hlookup := d.lookup_labelNamed name
  have hplaced := Builder.position?_of_place hp
  have hoffset : (d.labelNamed name).2.builder.offset = d.builder.offset := by
    rw [hr.offset_eq, (records_labelNamed hr name).offset_eq]
  constructor
  · rw [← d.position?_labelNamed name name]
    unfold position?
    rw [hlookup]
    exact (Builder.place_eq_ok hp).2.1
  · intro n
    rw [← d.position?_labelNamed name n]
    unfold position?
    show ((d.labelNamed name).2.labels.lookup n).bind builder.position? = _
    by_cases hn : n = name
    · rw [if_pos hn, hn, hlookup]
      show builder.position? _ = _
      rw [hplaced, if_pos rfl, hoffset]
    · rw [if_neg hn]
      cases hl : (d.labelNamed name).2.labels.lookup n with
      | none => rfl
      | some l =>
          have hne : l ≠ (d.labelNamed name).1 := by
            rintro rfl
            exact hn ((h.labelNamed name).injective hl hlookup)
          show builder.position? l = _
          rw [hplaced, if_neg hne]
          rfl

/-! ## Instructions -/

section Instructions

variable {t : SymbolTable} {address? : String → Option Nat} {verbs : String → Option VerbId}
variable {cs : List Char}

/-- What an item has to do with the text of its instruction: it is the opcode of the text, or a branch
to the label of the name that the text gives. -/
inductive Emits (address? : String → Option Nat) (verbs : String → Option VerbId) (d : Draft)
    (cs : List Char) : Appended → Prop where
  | complete {o : Opcode} (h : ∀ offset?, denoted? address? verbs offset? cs = some o) :
      Emits address? verbs d cs (.opcode o)
  | branch {op : BranchOp} {name : String} {l : Label} (hl : d.labels.lookup name = some l)
      (h : ∀ offset?, denoted? address? verbs offset? cs = (offset? name).map (.branch op)) :
      Emits address? verbs d cs (.branch op l)

theorem Emits.extend {a : Appended} (h : Emits address? verbs d cs a) (hd : d'.Extends d) :
    Emits address? verbs d' cs a := by
  cases h with
  | complete h => exact .complete h
  | branch hl h => exact .branch (hd _ _ hl) h

/-- An item that resolves is the opcode of its text, with the label where the draft has it. -/
theorem Emits.denoted {a : Appended} {o : Opcode} (h : Emits address? verbs d cs a)
    (ho : d.builder.resolve a = .ok o) : denoted? address? verbs d.position? cs = some o := by
  cases h with
  | complete h =>
      cases ho
      exact h d.position?
  | @branch op name l hl h =>
      obtain ⟨target, htarget, -, rfl⟩ := Builder.resolve_branch_eq_ok.1 ho
      have hname : d.position? name = some target := by
        unfold position?
        rw [hl]
        exact htarget
      rw [h, hname]
      rfl

theorem address?_of_memoryOperand {line a : Nat}
    (ht : ∀ n, (t.get? n).map Symbol.address = address? n)
    (h : memoryOperand t line cs = .ok a) :
    (Text.unsigned? cs).or (address? (String.ofList cs)) = some a := by
  unfold memoryOperand at h
  split at h
  · cases h
  · cases hn : Text.unsigned? cs with
    | some n =>
        rw [hn] at h
        cases h
        rfl
    | none =>
        rw [hn] at h
        rw [← ht]
        cases hs : t.get? (String.ofList cs) with
        | none =>
            rw [hs] at h
            cases h
        | some s =>
            rw [hs] at h
            cases h
            rfl

theorem verb?_of_verbOperand {line : Nat} {v : VerbId} (h : verbOperand verbs line cs = .ok v) :
    verb? verbs cs = some v := by
  unfold verbOperand at h
  unfold verb?
  split at h
  · cases h
  · rename_i id
    simp only
    cases hn : Text.int32? id with
    | none =>
        rw [hn] at h
        cases h
    | some n =>
        rw [hn] at h
        cases h
        rfl
  · rename_i hname
    have hv : verbs (String.ofList cs) = some v := by
      cases hv : verbs (String.ofList cs) with
      | none =>
          rw [hv] at h
          cases h
      | some v' =>
          rw [hv] at h
          cases h
          rfl
    split
    · exact absurd rfl (hname _)
    · exact hv

/-- **One instruction** appends what its text denotes. The cases are those of the mnemonic. -/
theorem instruction_cases {line : Nat} (ht : ∀ n, (t.get? n).map Symbol.address = address? n)
    (h : instruction t verbs d line cs = .ok d') :
    (∃ o, d' = d.append o ∧ ∀ offset?, denoted? address? verbs offset? cs = some o) ∨
    (∃ op name, d' = d.appendBranch op name ∧
      ∀ offset?, denoted? address? verbs offset? cs = (offset? name).map (.branch op)) := by
  unfold instruction at h
  unfold denoted?
  generalize Text.splitWord cs = words at h
  obtain ⟨word, rest⟩ := words
  simp only at h ⊢
  generalize Text.trim rest = operand at h
  cases hm : Mnemonic.ofText? (String.ofList (word.map Char.toLower)) with
  | none =>
      rw [hm] at h
      cases h
  | some m =>
      rw [hm] at h
      cases m with
      | push =>
          simp only [Opcode.bare?] at h ⊢
          cases hv : Value.ofText? operand with
          | none =>
              rw [hv] at h
              cases h
          | some v =>
              rw [hv] at h
              cases h
              exact Or.inl ⟨.push v, rfl, fun _ => rfl⟩
      | memory op =>
          simp only [Opcode.bare?] at h ⊢
          obtain ⟨a, ha, rfl⟩ := Attempt.map_eq_ok h
          refine Or.inl ⟨.memory op a, rfl, fun _ => ?_⟩
          rw [address?_of_memoryOperand ht ha]
          rfl
      | branch op =>
          simp only [Opcode.bare?, appendBranchTo] at h ⊢
          cases hn : Text.unsigned? operand with
          | some target =>
              rw [hn] at h
              cases h
              exact Or.inl ⟨.branch op target, rfl, fun _ => rfl⟩
          | none =>
              rw [hn] at h
              simp only at h
              split at h
              · cases h
                exact Or.inr ⟨op, String.ofList operand, rfl, fun _ => rfl⟩
              · cases h
      | call keeps =>
          simp only [Opcode.bare?] at h ⊢
          obtain ⟨v, hv, rfl⟩ := Attempt.map_eq_ok h
          refine Or.inl ⟨.call keeps v, rfl, fun _ => ?_⟩
          rw [verb?_of_verbOperand hv]
          rfl
      | dup | ret | unary op | binary op =>
          simp only [Opcode.bare?] at h ⊢
          split at h
          · rename_i hempty
            cases h
            exact Or.inl ⟨_, rfl, fun _ => if_pos hempty⟩
          · cases h

end Instructions

/-! ## Lines -/

section Lines

variable {t : SymbolTable} {address? : String → Option Nat} {verbs : String → Option VerbId}
variable {ss : List Statement}

/-- **What a draft has of the statements taken so far:** an item for each text, and each name where
the statements put it. -/
structure Holds (address? : String → Option Nat) (verbs : String → Option VerbId)
    (ss : List Statement) (items : List Appended) (d : Draft) : Prop where
  sound : d.Sound
  records : d.builder.Records items
  emits : List.Forall₂ (Emits address? verbs d) (bodies ss) items
  position : ∀ name, d.position? name =
    (instructionsBefore? name ss).map fun n => ((items.take n).map Appended.length).sum

theorem holds_empty : Holds address? verbs [] [] .empty := by
  refine ⟨⟨?_, ?_⟩, .empty, .nil, fun _ => rfl⟩
  · intro n l h
    cases h
  · intro m n l h
    cases h

theorem Holds.define {line : Nat} (h : Holds address? verbs ss items d)
    (hd : d.define line name = .ok d') :
    Holds address? verbs (ss ++ [⟨some name, []⟩]) items d' := by
  obtain ⟨hnone, hposition⟩ := h.sound.position?_define h.records hd
  refine ⟨h.sound.define hd, records_define h.records hd, ?_, ?_⟩
  · rw [bodies_append]
    have hsame : bodies [⟨some name, []⟩] = [] := rfl
    rw [hsame, List.append_nil]
    exact h.emits.imp fun _ _ he => he.extend (extends_define hd)
  · intro n
    rw [hposition, instructionsBefore?_snoc]
    by_cases hn : n = name
    · -- The name is new to the statements, so this is its first definition.
      have hbefore : instructionsBefore? n ss = none := by
        rw [h.position, Option.map_eq_none_iff] at hnone
        rw [hn]
        exact hnone
      rw [if_pos hn, hbefore, hn, if_pos rfl, h.records.offset_eq, h.emits.length_eq]
      show _ = some ((items.take items.length).map Appended.length).sum
      rw [List.take_length]
    · rw [if_neg hn, if_neg (fun he => hn (Option.some.inj he).symm), Option.or_none]
      exact h.position n

theorem Holds.blank (h : Holds address? verbs ss items d) :
    Holds address? verbs (ss ++ [⟨none, []⟩]) items d := by
  refine ⟨h.sound, h.records, ?_, ?_⟩
  · rw [bodies_append]
    have hsame : bodies [⟨none, []⟩] = [] := rfl
    rw [hsame, List.append_nil]
    exact h.emits
  · intro n
    rw [instructionsBefore?_snoc, if_neg (by simp), Option.or_none]
    exact h.position n

/-- A text added to the last statement, with the item that the draft gets for it. Labels are defined
in front of the text, so they stay where they are. -/
theorem Holds.extend {l : Option String} {cs : List Char} {a : Appended}
    (h : Holds address? verbs (ss ++ [⟨l, []⟩]) items d) (hcs : cs ≠ []) (hsound : d'.Sound)
    (hextends : d'.Extends d) (hrecords : d'.builder.Records (items ++ [a]))
    (hemits : Emits address? verbs d' cs a) (hposition : ∀ n, d'.position? n = d.position? n) :
    Holds address? verbs (ss ++ [⟨l, cs⟩]) (items ++ [a]) d' := by
  have hbefore : bodies (ss ++ [⟨l, []⟩]) = bodies ss := by
    rw [bodies_append]
    exact List.append_nil _
  have hitems : List.Forall₂ (Emits address? verbs d) (bodies ss) items := hbefore ▸ h.emits
  refine ⟨hsound, hrecords, ?_, ?_⟩
  · have hafter : bodies (ss ++ [⟨l, cs⟩]) = bodies ss ++ [cs] := by
      rw [bodies_append]
      simp [bodies, hcs]
    rw [hafter]
    exact List.rel_append (hitems.imp fun _ _ he => he.extend hextends) (.cons hemits .nil)
  · intro n
    have hsame : instructionsBefore? n (ss ++ [⟨l, cs⟩]) =
        instructionsBefore? n (ss ++ [⟨l, []⟩]) := by
      rw [instructionsBefore?_snoc, instructionsBefore?_snoc]
    rw [hposition, h.position, hsame]
    cases hn : instructionsBefore? n (ss ++ [⟨l, []⟩]) with
    | none => rfl
    | some k =>
        -- A label stands behind at most all items so far, so the new one does not move it.
        have hk : k ≤ items.length := by
          rw [← hitems.length_eq, ← hbefore]
          exact instructionsBefore?_le hn
        show _ = some (((items ++ [a]).take k).map Appended.length).sum
        rw [List.take_append_of_le_length hk]
        rfl

theorem Holds.instruction {line : Nat} {l : Option String} {cs : List Char}
    (ht : ∀ n, (t.get? n).map Symbol.address = address? n)
    (h : Holds address? verbs (ss ++ [⟨l, []⟩]) items d) (hcs : cs ≠ [])
    (hd : instruction t verbs d line cs = .ok d') :
    ∃ a, Holds address? verbs (ss ++ [⟨l, cs⟩]) (items ++ [a]) d' := by
  rcases instruction_cases ht hd with ⟨o, rfl, ho⟩ | ⟨op, name, rfl, ho⟩
  · exact ⟨.opcode o, h.extend hcs ⟨h.sound.allocated, h.sound.injective⟩ (fun _ _ hn => hn)
      (h.records.append o) (.complete ho) fun _ => rfl⟩
  · have hsound := h.sound.labelNamed name
    have hlookup := d.lookup_labelNamed name
    exact ⟨.branch op (d.labelNamed name).1, h.extend hcs ⟨hsound.allocated, hsound.injective⟩
      (d.extends_labelNamed name) ((records_labelNamed h.records name).appendBranch op _)
      (.branch hlookup ho) (d.position?_labelNamed name)⟩

/-- **The step.** A line of code adds its statement. -/
theorem Holds.codeLine {line : Line} {s : Statement}
    (ht : ∀ n, (t.get? n).map Symbol.address = address? n)
    (h : Holds address? verbs ss items d) (hs : statement? line = some s) (hline : line.text ≠ [])
    (hd : codeLine t verbs d line = .ok d') :
    ∃ items', Holds address? verbs (ss ++ [s]) items' d' := by
  unfold statement? at hs
  cases hdirective : directive? line.text with
  | some r =>
      rw [hdirective] at hs
      cases hs
  | none =>
      rw [hdirective] at hs
      unfold Assembly.codeLine at hd
      cases hlabel : splitLabel? line.text with
      | none =>
          rw [hlabel] at hs hd
          cases hs
          -- Without a label the text is added to a statement that says nothing yet.
          obtain ⟨a, ha⟩ := h.blank.instruction ht hline hd
          exact ⟨_, ha⟩
      | some r =>
          obtain ⟨label, rest⟩ := r
          rw [hlabel] at hs hd
          cases hs
          obtain ⟨d₁, hdefine, hd⟩ := Attempt.bind_eq_ok hd
          have h₁ := h.define hdefine
          cases hbody : Text.trim rest with
          | nil =>
              rw [hbody] at hd
              cases hd
              exact ⟨items, h₁⟩
          | cons c cs =>
              rw [hbody] at hd
              obtain ⟨a, ha⟩ := h₁.instruction ht (List.cons_ne_nil c cs) hd
              exact ⟨_, ha⟩

end Lines

/-! ## Resolution -/

section Resolution

variable {address? : String → Option Nat} {verbs : String → Option VerbId}
variable {ss : List Statement} {os : List Opcode}

/-- Labels have the offsets that the opcodes give them, since an item has its length before its
label has an offset. -/
theorem Holds.position?_eq (h : Holds address? verbs ss items d)
    (hos : items.mapM d.builder.resolve = .ok os) : d.position? = labelOffset? ss os := by
  have hresolved := Attempt.forall₂_of_mapM hos
  have hlengths : items.map Appended.length = os.map Opcode.encodedLength := by
    clear hos h
    induction hresolved with
    | nil => rfl
    | cons ha _ ih => rw [List.map_cons, List.map_cons, ih, Builder.encodedLength_of_resolve ha]
  funext name
  rw [h.position]
  unfold labelOffset?
  simp only [List.map_take, hlengths]

/-- **What a draft resolves to:** the opcodes that the texts denote. -/
theorem Holds.denoted (h : Holds address? verbs ss items d)
    (hos : items.mapM d.builder.resolve = .ok os) :
    (bodies ss).map (denoted? address? verbs (labelOffset? ss os)) = os.map some := by
  have hresolved := Attempt.forall₂_of_mapM hos
  have hemits := h.emits
  -- The draft's own places do here; they are the offsets that the opcodes give.
  rw [← h.position?_eq hos]
  clear hos h
  generalize bodies ss = texts at hemits
  induction hemits generalizing os with
  | nil =>
      cases hresolved
      rfl
  | cons he _ ih =>
      cases hresolved with
      | cons ho hrest => rw [List.map_cons, List.map_cons, ih hrest, he.denoted ho]

end Resolution

end CogMachine.Assembly.Draft
