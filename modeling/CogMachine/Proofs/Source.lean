import CogMachine.Assembly.Assemble
import Mathlib

/-!
# What a source says

The meaning of a source, line by line and without any table of labels. A line of code is a statement:
a label, the text of an instruction, or both. Given the opcodes of a whole source, a label stands for
the sum of the lengths of the opcodes before its definition, a symbol for the number of declarations
before its own, and `denoted?` reads each text by itself.
-/

namespace CogMachine.Assembly

/-! ## Statements -/

/-- What a line of code says. The text is empty if there is no instruction. -/
structure Statement where
  label : Option String
  body : List Char
  deriving DecidableEq, Inhabited, Repr

/-- The statement of a line, unless it is a directive. -/
def statement? (line : Line) : Option Statement :=
  match directive? line.text with
  | some _ => none
  | none =>
    match splitLabel? line.text with
    | none => some ⟨none, line.text⟩
    | some (name, rest) => some ⟨some (String.ofList name), Text.trim rest⟩

def statements (lines : List Line) : List Statement := lines.filterMap statement?

/-- The texts of the instructions, in order. -/
def bodies (ss : List Statement) : List (List Char) := (ss.map (·.body)).filter (!·.isEmpty)

/-- How many instructions stand before the definition of a label. -/
def instructionsBefore? (name : String) : List Statement → Option Nat
  | [] => none
  | s :: ss =>
    if s.label = some name then some 0
    else (instructionsBefore? name ss).map (· + (bodies [s]).length)

/-- **Offset of a label:** the sum of the lengths of the opcodes before its definition. -/
def labelOffset? (ss : List Statement) (os : List Opcode) (name : String) : Option Nat :=
  (instructionsBefore? name ss).map fun n => ((os.take n).map Opcode.encodedLength).sum

/-! ## Directives -/

/-- The texts behind a directive's keyword, in order. -/
def directives (keyword : String) (lines : List Line) : List (List Char) :=
  lines.filterMap fun line =>
    match directive? line.text with
    | some (word, rest) => if word = keyword.toList then some rest else none
    | none => none

def declarations (lines : List Line) : List (List Char) := directives "symbol" lines

def messageNames (lines : List Line) : List String :=
  (directives "message" lines).map fun cs => String.ofList (Text.trim cs)

def declaredName (cs : List Char) : String :=
  String.ofList (Text.splitWord (Text.trim (Text.splitWord (Text.trim cs)).2)).1

/-- **Address of a symbol:** the number of declarations before its own. -/
def symbolAddress? (declarations : List (List Char)) (name : String) : Option Nat :=
  declarations.findIdx? (declaredName · == name)

/-- The default of a symbol: the literal behind an equals sign, or the zero of the type. -/
def default? (type : ValueType) : List Char → Option Value
  | [] => some (.zero type)
  | '=' :: literal => Value.ofText? (Text.trim literal)
  | _ => none

def declared? (address : Nat) (cs : List Char) : Option Symbol :=
  let (typeWord, afterType) := Text.splitWord (Text.trim cs)
  let (_, afterName) := Text.splitWord (Text.trim afterType)
  let (given, isLocal) := splitLocal (Text.trim afterName)
  (ValueType.ofText? (String.ofList typeWord)).bind fun type =>
    (default? type given).map fun default =>
      { Symbol.ofType (declaredName cs) type address with default := default, isLocal := isLocal }

/-! ## Instructions -/

/-- The verb that an operand names, by its id or by its name. -/
def verb? (verbs : String → Option VerbId) : List Char → Option VerbId
  | '#' :: id => (Text.int32? id).map VerbId.mk
  | name => verbs (String.ofList name)

/-- **The opcode that a text denotes,** given what symbols, verbs and labels stand for. -/
def denoted? (address? : String → Option Nat) (verbs : String → Option VerbId)
    (offset? : String → Option Nat) (cs : List Char) : Option Opcode :=
  let (word, rest) := Text.splitWord cs
  let operand := Text.trim rest
  match Mnemonic.ofText? (String.ofList (word.map Char.toLower)) with
  | none => none
  | some .push => (Value.ofText? operand).map .push
  | some (.memory op) =>
    ((Text.unsigned? operand).or (address? (String.ofList operand))).map (.memory op)
  | some (.branch op) =>
    ((Text.unsigned? operand).or (offset? (String.ofList operand))).map (.branch op)
  | some (.call keeps) => (verb? verbs operand).map (.call keeps)
  | some bare => if operand.isEmpty then Opcode.bare? bare else none

/-- **The opcodes of a source:** one for each text of an instruction, in order. Where labels stand is
read off the same opcodes. -/
def Means (lines : List Line) (verbs : String → Option VerbId) (os : List Opcode) : Prop :=
  (bodies (statements lines)).map
      (denoted? (symbolAddress? (declarations lines)) verbs (labelOffset? (statements lines) os)) =
    os.map some

instance (lines : List Line) (verbs : String → Option VerbId) (os : List Opcode) :
    Decidable (Means lines verbs os) :=
  inferInstanceAs (Decidable (_ = _))

/-! ## The opcodes are determined -/

/-- The length of an opcode does not depend on where labels stand. -/
theorem encodedLength_of_denoted? {address? : String → Option Nat} {verbs : String → Option VerbId}
    {offset? offset?' : String → Option Nat} {cs : List Char} {o o' : Opcode}
    (h : denoted? address? verbs offset? cs = some o)
    (h' : denoted? address? verbs offset?' cs = some o') : o.encodedLength = o'.encodedLength := by
  unfold denoted? at h h'
  generalize Text.splitWord cs = words at h h'
  obtain ⟨word, rest⟩ := words
  simp only at h h'
  cases hm : Mnemonic.ofText? (String.ofList (word.map Char.toLower)) with
  | none =>
      rw [hm] at h
      cases h
  | some m =>
      rw [hm] at h h'
      cases m with
      | branch op =>
          obtain ⟨target, -, rfl⟩ := Option.map_eq_some_iff.1 h
          obtain ⟨target', -, rfl⟩ := Option.map_eq_some_iff.1 h'
          rfl
      | push | memory op | call keeps | dup | ret | unary op | binary op =>
          rw [h] at h'
          cases h'
          rfl

/-- **At most one reading.** Equal lengths give labels equal offsets, and these give equal opcodes. -/
theorem Means.unique {lines : List Line} {verbs : String → Option VerbId} {os os' : List Opcode}
    (h : Means lines verbs os) (h' : Means lines verbs os') : os = os' := by
  have hlengths : os.map Opcode.encodedLength = os'.map Opcode.encodedLength := by
    -- Where labels stand does not matter for this, so it is forgotten before the induction.
    unfold Means at h h'
    generalize labelOffset? (statements lines) os = offset? at h
    generalize labelOffset? (statements lines) os' = offset?' at h'
    generalize bodies (statements lines) = texts at h h'
    induction texts generalizing os os' with
    | nil =>
        rw [List.map_nil, eq_comm, List.map_eq_nil_iff] at h h'
        rw [h, h']
    | cons cs texts ih =>
        cases os with
        | nil => cases h
        | cons o os =>
            cases os' with
            | nil => cases h'
            | cons o' os' =>
                rw [List.map_cons, List.map_cons, List.cons.injEq] at h h'
                rw [List.map_cons, List.map_cons, ih h.2 h'.2,
                  encodedLength_of_denoted? h.1 h'.1]
  have hoffsets : labelOffset? (statements lines) os = labelOffset? (statements lines) os' := by
    funext name
    unfold labelOffset?
    simp only [List.map_take, hlengths]
  unfold Means at h h'
  rw [hoffsets, h'] at h
  exact (List.map_inj_right fun _ _ he => Option.some.inj he).1 h.symm

/-! ## Sources that grow -/

theorem directives_snoc (keyword : String) (lines : List Line) (line : Line) :
    directives keyword (lines ++ [line]) = directives keyword lines ++ directives keyword [line] :=
  List.filterMap_append

theorem directives_singleton (keyword : String) (line : Line) :
    directives keyword [line] =
      match directive? line.text with
      | some (word, rest) => if word = keyword.toList then [rest] else []
      | none => [] := by
  unfold directives
  rw [List.filterMap_cons]
  cases directive? line.text with
  | none => rfl
  | some r =>
      by_cases hr : r.1 = keyword.toList
      · simp [hr]
      · simp [hr]

theorem statements_snoc (lines : List Line) (line : Line) :
    statements (lines ++ [line]) = statements lines ++ (statement? line).toList := by
  unfold statements
  rw [List.filterMap_append]
  cases h : statement? line <;> simp [h]

theorem bodies_append (ss more : List Statement) : bodies (ss ++ more) = bodies ss ++ bodies more := by
  simp [bodies]

theorem bodies_cons (s : Statement) (ss : List Statement) :
    bodies (s :: ss) = bodies [s] ++ bodies ss := bodies_append [s] ss

theorem instructionsBefore?_le {name : String} {ss : List Statement} {n : Nat}
    (h : instructionsBefore? name ss = some n) : n ≤ (bodies ss).length := by
  induction ss generalizing n with
  | nil => cases h
  | cons s ss ih =>
      rw [bodies_cons s ss, List.length_append]
      unfold instructionsBefore? at h
      by_cases hs : s.label = some name
      · rw [if_pos hs] at h
        cases h
        exact Nat.zero_le _
      · rw [if_neg hs] at h
        obtain ⟨k, hk, rfl⟩ := Option.map_eq_some_iff.1 h
        have := ih hk
        omega

/-- A label is found in the first statement that defines it. -/
theorem instructionsBefore?_snoc (name : String) (ss : List Statement) (s : Statement) :
    instructionsBefore? name (ss ++ [s]) =
      (instructionsBefore? name ss).or
        (if s.label = some name then some (bodies ss).length else none) := by
  induction ss with
  | nil =>
      by_cases hs : s.label = some name
      · simp [instructionsBefore?, hs, bodies]
      · simp [instructionsBefore?, hs]
  | cons s' ss ih =>
      rw [List.cons_append]
      unfold instructionsBefore?
      by_cases hs' : s'.label = some name
      · rw [if_pos hs', if_pos hs']
        rfl
      · rw [if_neg hs', if_neg hs', ih, bodies_cons s' ss]
        cases hn : instructionsBefore? name ss with
        | some n => rfl
        | none =>
            by_cases hs : s.label = some name
            · simp [hs, Nat.add_comm]
            · simp [hs]

end CogMachine.Assembly
