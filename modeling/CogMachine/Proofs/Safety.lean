import CogMachine.Machine.Instance
import CogMachine.Proofs.Assembly
import CogMachine.Proofs.Boundaries
import CogMachine.Proofs.Reachable

/-!
# Assembled code is never malformed

A source whose branches name labels assembles to opcodes whose branches lead to boundaries. Runs start at
boundaries, so they stay there: with either engine, in every state, each frame is at an instruction that
was emitted or at the end of the program.

- `KeepsToLabels` and `StringsFit` are asked of the source, and `emitted_of_assemble` says what assembly makes
  of it.
- `WellAimed` opcodes are what `Means.wellAimed` gives; the label at the end of the source is the one boundary
  that is no instruction (`labelOffset?_eq_extent`).
- `assemble_stays_on_boundaries` puts this together with what the engines do.
-/

namespace CogMachine.Assembly

/-! ## Texts of instructions -/

def mnemonic? (cs : List Char) : Option Mnemonic :=
  Mnemonic.ofText? (String.ofList ((Text.splitWord cs).1.map Char.toLower))

def operand (cs : List Char) : List Char := Text.trim (Text.splitWord cs).2

/-- **Sources that keep to labels:** no branch has a number for its operand. -/
def KeepsToLabels (lines : List Line) : Prop :=
  ∀ cs ∈ bodies (statements lines), ∀ op, mnemonic? cs = some (.branch op) → isName (operand cs) = true

/-- **Sources whose strings fit:** no string that is pushed is too long for its length to be written. -/
def StringsFit (lines : List Line) : Prop :=
  ∀ cs ∈ bodies (statements lines), ∀ s, mnemonic? cs = some .push →
    Value.ofText? (operand cs) = some (.string s) → s.utf8ByteSize < wordLimit

/-- Whether a text, if it branches, names a label. -/
def namesLabel (cs : List Char) : Bool :=
  match mnemonic? cs with
  | some (.branch _) => isName (operand cs)
  | _ => true

/-- Whether a text, if it pushes a string, pushes one that fits. -/
def stringFits (cs : List Char) : Bool :=
  match mnemonic? cs, Value.ofText? (operand cs) with
  | some .push, some (.string s) => s.utf8ByteSize < wordLimit
  | _, _ => true

theorem namesLabel_iff {cs : List Char} : namesLabel cs = true ↔
    ∀ op, mnemonic? cs = some (.branch op) → isName (operand cs) = true := by
  unfold namesLabel
  split
  · rename_i op hm
    exact ⟨fun h _ _ => h, fun h => h op hm⟩
  · rename_i hm
    exact ⟨fun _ op hop => absurd hop (hm op), fun _ => rfl⟩

theorem stringFits_iff {cs : List Char} : stringFits cs = true ↔ ∀ s, mnemonic? cs = some .push →
    Value.ofText? (operand cs) = some (.string s) → s.utf8ByteSize < wordLimit := by
  unfold stringFits
  split
  · rename_i s hm hs
    rw [decide_eq_true_eq]
    constructor
    · intro h s' _ hs'
      rw [hs] at hs'
      cases hs'
      exact h
    · exact fun h => h s hm hs
  · rename_i hpush
    exact ⟨fun _ s hm hs => absurd hs (hpush s hm), fun _ => rfl⟩

instance (lines : List Line) : Decidable (KeepsToLabels lines) :=
  decidable_of_iff (∀ cs ∈ bodies (statements lines), namesLabel cs = true)
    (forall₂_congr fun _ _ => namesLabel_iff)

instance (lines : List Line) : Decidable (StringsFit lines) :=
  decidable_of_iff (∀ cs ∈ bodies (statements lines), stringFits cs = true)
    (forall₂_congr fun _ _ => stringFits_iff)

/-- A label behind which no instruction stands. -/
def AtEnd (ss : List Statement) (name : String) : Prop :=
  instructionsBefore? name ss = some (bodies ss).length

section Denotation

variable {address? : String → Option Nat} {verbs : String → Option VerbId}
variable {offset? : String → Option Nat} {cs : List Char} {o : Opcode} {op : BranchOp}

theorem isDigit_of_isNameStart {c : Char} (h : isNameStart c = true) : c.isDigit = false := by
  unfold isNameStart at h
  simp only [Char.isAlpha, Char.isUpper, Char.isLower, Bool.or_eq_true, Bool.and_eq_true,
    decide_eq_true_eq, beq_iff_eq, ge_iff_le, UInt32.le_iff_toNat_le] at h
  simp only [Char.isDigit, Bool.and_eq_false_iff, decide_eq_false_iff_not, ge_iff_le,
    UInt32.le_iff_toNat_le]
  rcases h with (h | h) | rfl
  · right
    simp at h ⊢
    omega
  · right
    simp at h ⊢
    omega
  · decide

/-- A name is no number: neither a sign nor a digit may start it. -/
theorem unsigned?_of_isName (h : isName cs = true) : Text.unsigned? cs = none := by
  rcases cs with _ | ⟨c, cs⟩
  · cases h
  · have hstart : isNameStart c = true := (Bool.and_eq_true_iff.1 h).1
    have hsign : c ≠ '+' := by
      rintro rfl
      cases hstart
    have hdigits : Text.nat? (c :: cs) = none := by
      simp [Text.nat?, isDigit_of_isNameStart hstart]
    unfold Text.unsigned?
    split
    · rename_i heq
      exact absurd (List.cons.inj heq).1 hsign
    · simp only [hdigits]
      rfl

/-- A branch to a name leads where the name stands. -/
theorem denoted?_of_branch (hm : mnemonic? cs = some (.branch op))
    (hlabel : isName (operand cs) = true) : denoted? address? verbs offset? cs =
      (offset? (String.ofList (operand cs))).map (.branch op) := by
  have hnumber : Text.unsigned? (Text.trim (Text.splitWord cs).2) = none := unsigned?_of_isName hlabel
  unfold mnemonic? at hm
  simp only [denoted?, hm, hnumber, Option.none_or]
  rfl

/-- Only a branch denotes an opcode with a target. -/
theorem mnemonic?_of_target {t : Nat} (h : denoted? address? verbs offset? cs = some o)
    (ht : o.target? = some t) : ∃ op, mnemonic? cs = some (.branch op) := by
  unfold mnemonic?
  unfold denoted? at h
  rcases hm : Mnemonic.ofText? (String.ofList ((Text.splitWord cs).1.map Char.toLower)) with _ | m
  · simp only [hm] at h
    cases h
  · rcases m with _ | _ | op | op | keeps | _ | op | op
    case branch => exact ⟨op, rfl⟩
    all_goals simp only [hm] at h
    case push | memory | call =>
      obtain ⟨_, -, rfl⟩ := Option.map_eq_some_iff.1 h
      cases ht
    all_goals
      simp only [Opcode.bare?] at h
      split at h
      · cases h
        cases ht
      · cases h

theorem push_of_denoted? {v : Value} (h : denoted? address? verbs offset? cs = some (.push v)) :
    mnemonic? cs = some .push ∧ Value.ofText? (operand cs) = some v := by
  unfold mnemonic?
  unfold denoted? at h
  rcases hm : Mnemonic.ofText? (String.ofList ((Text.splitWord cs).1.map Char.toLower)) with _ | m
  · simp only [hm] at h
    cases h
  · simp only [hm] at h
    rcases m with _ | _ | op | op | keeps | _ | op | op
    case push =>
      obtain ⟨w, hw, heq⟩ := Option.map_eq_some_iff.1 h
      cases heq
      exact ⟨rfl, hw⟩
    case memory | branch | call =>
      obtain ⟨_, -, heq⟩ := Option.map_eq_some_iff.1 h
      cases heq
    all_goals
      simp only [Opcode.bare?] at h
      split at h <;> cases h

end Denotation

/-! ## Opcodes of a source -/

section Reading

variable {lines : List Line} {verbs : String → Option VerbId} {os : List Opcode} {name : String}
variable {ss : List Statement} {n : Nat}

theorem Means.length_eq (h : Means lines verbs os) :
    (bodies (statements lines)).length = os.length := by
  simpa using congrArg List.length h

/-- Every opcode is that of a text. -/
theorem Means.exists_body (h : Means lines verbs os) {o : Opcode} (ho : o ∈ os) :
    ∃ cs ∈ bodies (statements lines), denoted? (symbolAddress? (declarations lines)) verbs
      (labelOffset? (statements lines) os) cs = some o := by
  have hmem : some o ∈ os.map some := List.mem_map_of_mem ho
  rw [← h] at hmem
  exact List.mem_map.1 hmem

/-- Every text has its opcode. -/
theorem Means.exists_opcode (h : Means lines verbs os) {cs : List Char}
    (hcs : cs ∈ bodies (statements lines)) :
    ∃ o ∈ os, denoted? (symbolAddress? (declarations lines)) verbs
      (labelOffset? (statements lines) os) cs = some o := by
  have hmem := List.mem_map_of_mem (f := denoted? (symbolAddress? (declarations lines)) verbs
    (labelOffset? (statements lines) os)) hcs
  rw [h] at hmem
  obtain ⟨o, ho, heq⟩ := List.mem_map.1 hmem
  exact ⟨o, ho, heq.symm⟩

/-- **Labels stand at boundaries.** -/
theorem boundary_of_labelOffset? (h : labelOffset? ss os name = some n) : Boundary os n := by
  obtain ⟨k, -, rfl⟩ := Option.map_eq_some_iff.1 h
  exact boundary_iff.2 ⟨os.take k, os.drop k, (List.take_append_drop k os).symm, rfl⟩

/-- A label stands at the end of the opcodes exactly if no instruction stands behind it. -/
theorem labelOffset?_eq_extent (hlength : (bodies ss).length = os.length) :
    labelOffset? ss os name = some (extent os) ↔ AtEnd ss name := by
  unfold AtEnd
  rw [labelOffset?, Option.map_eq_some_iff]
  constructor
  · rintro ⟨k, hk, hextent⟩
    have hle := instructionsBefore?_le hk
    have hsplit : extent os = extent (os.take k) + extent (os.drop k) := by
      rw [← extent_append, List.take_append_drop]
    have hnone : extent (os.drop k) = 0 := by
      have htake : extent (os.take k) = extent os := hextent
      omega
    have hge := List.drop_eq_nil_iff.1 (extent_eq_zero.1 hnone)
    rw [hk, hlength, Nat.le_antisymm (hlength ▸ hle) hge]
  · intro h
    refine ⟨(bodies ss).length, h, ?_⟩
    rw [hlength, List.take_length]
    rfl

/-- **The opcodes of a source that keeps to labels** are well aimed, if its strings fit. -/
theorem Means.wellAimed (h : Means lines verbs os) (hlabels : KeepsToLabels lines)
    (hstrings : StringsFit lines) (haddress : ∀ o ∈ os, ∀ a, o.address? = some a → a < wordLimit) : Program.WellAimed os := by
  constructor
  · intro o ho
    refine ⟨?_, haddress o ho⟩
    rintro s rfl
    obtain ⟨cs, hcs, hdenoted⟩ := h.exists_body ho
    obtain ⟨hpush, hliteral⟩ := push_of_denoted? hdenoted
    exact hstrings cs hcs s hpush hliteral
  · intro o ho t ht
    obtain ⟨cs, hcs, hdenoted⟩ := h.exists_body ho
    obtain ⟨op, hbranch⟩ := mnemonic?_of_target hdenoted ht
    rw [denoted?_of_branch hbranch (hlabels cs hcs op hbranch)] at hdenoted
    obtain ⟨n, hn, rfl⟩ := Option.map_eq_some_iff.1 hdenoted
    cases ht
    exact boundary_of_labelOffset? hn

/-- A branch leads to the end exactly if its text names a label there. -/
theorem Means.exists_target_extent (h : Means lines verbs os) (hlabels : KeepsToLabels lines) :
    (∃ o ∈ os, o.target? = some (extent os)) ↔
      ∃ cs ∈ bodies (statements lines), (∃ op, mnemonic? cs = some (.branch op)) ∧
        AtEnd (statements lines) (String.ofList (operand cs)) := by
  have hend : ∀ name, labelOffset? (statements lines) os name = some (extent os) ↔
      AtEnd (statements lines) name := fun name => labelOffset?_eq_extent h.length_eq
  constructor
  · rintro ⟨o, ho, ht⟩
    obtain ⟨cs, hcs, hdenoted⟩ := h.exists_body ho
    obtain ⟨op, hbranch⟩ := mnemonic?_of_target hdenoted ht
    rw [denoted?_of_branch hbranch (hlabels cs hcs op hbranch)] at hdenoted
    obtain ⟨n, hn, rfl⟩ := Option.map_eq_some_iff.1 hdenoted
    cases ht
    exact ⟨cs, hcs, ⟨op, hbranch⟩, (hend _).1 hn⟩
  · rintro ⟨cs, hcs, ⟨op, hbranch⟩, hatEnd⟩
    obtain ⟨o, ho, hdenoted⟩ := h.exists_opcode hcs
    rw [denoted?_of_branch hbranch (hlabels cs hcs op hbranch), (hend _).2 hatEnd] at hdenoted
    cases hdenoted
    exact ⟨_, ho, rfl⟩

end Reading

/-! ## What assembly emits -/

theorem mem_of_offset? {t : ExportTable} {message : String} {entry : Nat}
    (h : t.offset? message = some entry) : (message, entry) ∈ t.entries := by
  obtain ⟨entries⟩ := t
  unfold ExportTable.offset? at h
  induction entries with
  | nil => cases h
  | cons e entries ih =>
      rw [List.lookup_cons] at h
      split at h
      · rename_i heq
        cases h
        obtain rfl : message = e.1 := eq_of_beq heq
        exact List.mem_cons_self
      · exact List.mem_cons_of_mem e (ih h)

/-- A message is exported where its label stands. -/
theorem Stages.position?_of_offset? {name source : String} {verbs : String → Option VerbId} {script : Script}
    {p : Progress} (h : Stages name source verbs script p) {message : String} {entry : Nat}
    (hentry : script.exports.offset? message = some entry) : p.draft.position? message = some entry := by
  have hmem : (message, some entry) ∈ script.exports.entries.map fun e => (e.1, some e.2) :=
    List.mem_map.2 ⟨(message, entry), mem_of_offset? hentry, rfl⟩
  rw [(perm_exportMessage h.exports).mem_iff] at hmem
  obtain ⟨m, -, heq⟩ := List.mem_map.1 hmem
  rw [Prod.mk.injEq] at heq
  obtain ⟨rfl, hposition⟩ := heq
  exact hposition

/-- **What is emitted** for a source: the opcodes that it means, one after the other, with each message
where its label stands. -/
theorem emitted_of_assemble {name source : String} {verbs : String → Option VerbId} {script : Script}
    (h : assemble name source verbs = .ok script) :
    ∃ os, Means (linesOf source) verbs os ∧
      script.program = .ofBytes (os.flatMap Opcode.encode) ∧
      (∀ o ∈ os, ∀ a, o.address? = some a → a < wordLimit) ∧
      ∀ message entry, script.exports.offset? message = some entry →
        labelOffset? (statements (linesOf source)) os message = some entry := by
  obtain ⟨p, hstages⟩ := assemble_eq_ok.1 h
  have hdecls := declares_declareSymbols hstages.symbols
  obtain ⟨items, hdraft⟩ := (follows_foldlM hstages.lines).draft
  obtain ⟨os, hos, hprogram, haddress⟩ := hdraft.records.finish_cases hstages.program
  have haddresses : (fun n => (script.symbols.get? n).map Symbol.address) =
      symbolAddress? (declarations (linesOf source)) := funext hdecls.address
  rw [haddresses] at hdraft
  refine ⟨os, hdraft.denoted hos, hprogram, haddress, ?_⟩
  intro message entry hentry
  rw [← hdraft.position?_eq hos]
  exact hstages.position?_of_offset? hentry

end CogMachine.Assembly

namespace CogMachine

open Assembly
open Machine (Reachable Continues CallAnswers)

/-! ## Runs of well aimed code -/

/-- **Entries:** the start of the program, and the handlers of its messages. -/
def Script.IsEntry (script : Script) (entry : Nat) : Prop :=
  entry = 0 ∨ ∃ message, script.entryPoint message = .ok entry

/-- **Whose fault it is.** A fault in the code says that the end of the program was reached, or it is that
of the verb that the run from `m` called last. -/
def Machine.EndOrVerb {S : Type} (e : Engine S) (limits : Limits) (m : Machine S) (script : Script)
    (f : Fault) : Prop :=
  f.cause.inCode = true →
    f.cause = .addressOutOfRange script.program.length script.program.length ∨
    ∃ m₁ keeps fault m', Continues e limits m m₁ ∧ CallAnswers e keeps (.error fault) m₁ m' ∧
      fault.cause = f.cause

section Runs

variable {script : Script} {os : List Opcode} {entry : Nat} {limits : Limits}

/-- An entry check fails only at the end of the program. -/
theorem cause_of_checkAddress (hp : script.program = .ofBytes (os.flatMap Opcode.encode))
    (hentry : Boundary os entry) {cause : Fault.Cause}
    (h : script.program.checkAddress entry = .error cause) :
    cause = .addressOutOfRange script.program.length script.program.length := by
  have hle := hentry.le_extent
  rw [← Program.length_ofBytes os, ← hp] at hle
  unfold Program.checkAddress at h
  split at h
  · cases h
  · rename_i hge
    cases h
    rw [Nat.le_antisymm hle (Nat.le_of_not_lt hge)]

theorem placed_ofFrame {S : Type} {P : Nat → Prop} {f : Frame} (rest : S) (hscript : f.script = script)
    (hcounter : P f.counter) : (⟨.ofFrame f, rest⟩ : Machine S).Placed script P := by
  intro p hp
  obtain rfl := List.mem_singleton.1 hp
  exact ⟨hscript, hcounter⟩

theorem Machine.Continues.endOrVerb {S : Type} {e : Engine S} {m m₁ m' : Machine S} {f : Fault}
    (he : Machine.Orderly e) (hp : script.program = .ofBytes (os.flatMap Opcode.encode))
    (hos : Program.WellAimed os) (hm : m.Placed script (Boundary os)) (h : Continues e limits m m₁)
    (hc : Machine.cycle e limits m₁ = (.faulted f, m')) : Machine.EndOrVerb e limits m script f := by
  intro hcode
  have hclosed := Program.closed_boundary hp hos
  have h₁ : m₁.Placed script (Boundary os) := (Reachable.start.of_continues h).placed he hclosed hm
  rcases h₁.faulted he hclosed hc hcode with ⟨n, hn, hdecode⟩ | ⟨keeps, fault, hcall, hcause⟩
  · exact .inl (Program.cause_of_boundary hp hos hn hdecode)
  · exact .inr ⟨m₁, keeps, fault, m', h, hcall, hcause⟩

/-- **Transient runs** of well aimed code stay on its boundaries. -/
theorem Transient.stays_on_boundaries {ω : Type} (verbs : VerbTable (Handler ω)) (limits : Limits)
    (s : State ω) (hp : script.program = .ofBytes (os.flatMap Opcode.encode))
    (hos : Program.WellAimed os) (hentry : Boundary os entry) :
    (∀ m, Reachable (engine verbs) limits (started script entry s) m → m.Placed script (Boundary os)) ∧
    ∀ fuel f s', run verbs limits fuel script entry s = some (.error f, s') →
      Machine.EndOrVerb (engine verbs) limits (started script entry s) script f := by
  have hstart : (started script entry s).Placed script (Boundary os) := placed_ofFrame _ rfl hentry
  constructor
  · intro m hm
    exact hm.placed (orderly verbs) (Program.closed_boundary hp hos) hstart
  · intro fuel f s' hrun
    unfold run at hrun
    split at hrun
    · rename_i cause hcheck
      cases hrun
      intro _
      exact .inl (cause_of_checkAddress hp hentry hcheck)
    · obtain ⟨⟨r, m'⟩, hr, heq⟩ := Option.map_eq_some_iff.1 hrun
      rcases r with fault | halt
      · cases heq
        obtain ⟨m₁, hcont, hc⟩ := (Reachable.start.of_run hr).2 f rfl
        exact hcont.endOrVerb (orderly verbs) hp hos hstart hc
      · cases heq

/-- **Executions** of well aimed code stay on its boundaries, however often they are taken up again, if
the verbs leave the frames in their places. -/
theorem Resumable.stays_on_boundaries {σ : Type} {verbs : VerbTable (Handler σ)} (limits : Limits)
    {i : Instance} (context : Context) (w : World σ) (hi : i.script = script)
    (hverbs : ∀ v ∈ verbs.verbs, KeepsPlaces v.handler)
    (hp : script.program = .ofBytes (os.flatMap Opcode.encode)) (hos : Program.WellAimed os)
    (hentry : Boundary os entry) :
    (∀ cause, i.continuationAt entry context = .error cause →
      cause = .addressOutOfRange script.program.length script.program.length) ∧
    ∀ c, i.continuationAt entry context = .ok c →
      ∀ m, Reachable (engine verbs) limits ⟨c, w⟩ m → m.Placed script (Boundary os) ∧
        ∀ fuel f m', execute verbs limits fuel m = some (.error f, m') →
          Machine.EndOrVerb (engine verbs) limits m script f := by
  subst hi
  unfold Instance.continuationAt Instance.frameAt
  cases hcheck : i.script.program.checkAddress entry with
  | error cause =>
      constructor
      · intro cause' h
        cases h
        exact cause_of_checkAddress hp hentry hcheck
      · intro c h
        cases h
  | ok _ =>
      constructor
      · intro cause h
        cases h
      · intro c h m hm
        cases h
        have hstart : Machine.Placed i.script (Boundary os) ⟨.ofFrame
            { Frame.enter i.script entry with memory := some i.memory, context := context }, w⟩ :=
          placed_ofFrame w rfl hentry
        have hplaced := hm.placed (orderly hverbs) (Program.closed_boundary hp hos) hstart
        refine ⟨hplaced, ?_⟩
        intro fuel f m' hrun
        rcases (hm.of_execute hrun).2 f rfl with hlimit | ⟨m₁, hcont, hc⟩
        · intro hcode
          rw [hlimit] at hcode
          cases hcode
        · exact hcont.endOrVerb (orderly hverbs) hp hos hplaced hc

end Runs

/-! ## The whole source -/

/-- **Assembled code is never malformed.** Let the branches of a source name labels, and let its strings fit
the count of their bytes. From an entry, both engines keep every frame at an instruction that was emitted or at the end of the program, in every state
that can be reached. So no fault says of the code but that its end was reached, unless the verb that was
called last says so. The program is invalid exactly if a branch names a label with no instruction behind it. -/
theorem assemble_stays_on_boundaries {name source : String} {resolve : String → Option VerbId}
    {script : Script} (h : assemble name source resolve = .ok script)
    (hlabels : KeepsToLabels (linesOf source)) (hstrings : StringsFit (linesOf source)) :
    ∃ os, Means (linesOf source) resolve os ∧
      script.program = .ofBytes (os.flatMap Opcode.encode) ∧
      (∀ entry, script.IsEntry entry →
        (∀ (ω : Type) (verbs : VerbTable (Transient.Handler ω)) (limits : Limits)
            (s : Transient.State ω),
          (∀ m, Reachable (Transient.engine verbs) limits (Transient.started script entry s) m →
            m.Placed script (Boundary os)) ∧
          ∀ fuel f s', Transient.run verbs limits fuel script entry s = some (.error f, s') →
            Machine.EndOrVerb (Transient.engine verbs) limits (Transient.started script entry s)
              script f) ∧
        ∀ (σ : Type) (verbs : VerbTable (Resumable.Handler σ)) (limits : Limits) (i : Instance)
            (context : Context) (w : Resumable.World σ), i.script = script →
          (∀ v ∈ verbs.verbs, Resumable.KeepsPlaces v.handler) →
          (∀ cause, i.continuationAt entry context = .error cause →
            cause = .addressOutOfRange script.program.length script.program.length) ∧
          ∀ c, i.continuationAt entry context = .ok c →
            ∀ m, Reachable (Resumable.engine verbs) limits ⟨c, w⟩ m →
              m.Placed script (Boundary os) ∧
              ∀ fuel f m', Resumable.execute verbs limits fuel m = some (.error f, m') →
                Machine.EndOrVerb (Resumable.engine verbs) limits m script f) ∧
      ∀ cause, script.program.validate = .error cause ↔
        cause = .addressOutOfRange script.program.length script.program.length ∧
          ∃ cs ∈ bodies (statements (linesOf source)), (∃ op, mnemonic? cs = some (.branch op)) ∧
            AtEnd (statements (linesOf source)) (String.ofList (operand cs)) := by
  obtain ⟨os, hmeans, hp, haddress, hexports⟩ := emitted_of_assemble h
  have hos := hmeans.wellAimed hlabels hstrings haddress
  refine ⟨os, hmeans, hp, ?_, ?_⟩
  · intro entry hentry
    have hboundary : Boundary os entry := by
      rcases hentry with rfl | ⟨message, hmessage⟩
      · exact boundary_zero os
      · unfold Script.entryPoint at hmessage
        split at hmessage
        · rename_i offset hoffset
          cases hmessage
          exact boundary_of_labelOffset? (hexports message _ hoffset)
        · cases hmessage
    constructor
    · intro ω verbs limits s
      exact Transient.stays_on_boundaries verbs limits s hp hos hboundary
    · intro σ verbs limits i context w hi hverbs
      exact Resumable.stays_on_boundaries limits context w hi hverbs hp hos hboundary
  · intro cause
    have hlength : script.program.length = extent os := by rw [hp, Program.length_ofBytes]
    rw [Program.validate_ofBytes hp hos, hlength, hmeans.exists_target_extent hlabels]

/-- A source that calls its first instruction again and again, unless it leaves for a label at the end. -/
def leaving : String := ".message main\nmain: push true\nbf done\njal main\ndone:"

/-- It is refused as a whole, for the branch to its end, and stays on its four boundaries all the same. -/
theorem assemble_stays_on_boundaries_leaving :
    ∃ script, assemble "demo" leaving (fun _ => none) = .ok script ∧
      script.program.validate = .error (.addressOutOfRange 13 13) ∧
      ∀ (verbs : VerbTable (Transient.Handler Unit)) (limits : Limits) (m : Machine (Transient.State Unit)),
        Reachable (Transient.engine verbs) limits (Transient.started script 0 ⟨.empty, ()⟩) m →
        ∀ p ∈ m.continuation.places, p.2 ∈ [0, 3, 8, 13] := by
  have h : assemble "demo" leaving (fun _ => none) = .ok
      { name := "demo"
        program := ⟨#[1, 3, 1, 35, 13, 0, 0, 0, 33, 0, 0, 0, 0]⟩
        symbols := .empty
        exports := ⟨[("main", 0)]⟩ } := by
    decide +kernel
  obtain ⟨os, hmeans, -, hruns, hvalid⟩ := assemble_stays_on_boundaries h (by decide +kernel) (by decide +kernel)
  obtain rfl : os = [.push (.bool true), .branch .ifFalse 13, .branch .link 0] :=
    hmeans.unique (by decide +kernel)
  refine ⟨_, h, ?_, ?_⟩
  · refine (hvalid _).2 ⟨rfl, "bf done".toList, by decide +kernel, ⟨.ifFalse, by decide +kernel⟩, ?_⟩
    unfold AtEnd
    decide +kernel
  · intro verbs limits m hm p hp
    have hboundary := ((hruns 0 (.inl rfl)).1 Unit verbs limits ⟨.empty, ()⟩).1 m hm p hp
    rcases hboundary.2 with ⟨i, hi, hoffset⟩ | hend
    · have hlaid : ∀ i ∈ layout 0 [.push (.bool true), .branch .ifFalse 13, .branch .link 0],
          i.offset ∈ [0, 3, 8, 13] := by decide
      rw [← hoffset]
      exact hlaid i hi
    · rw [hend]
      decide

end CogMachine
