import CogMachine.Proofs.Literals
import CogMachine.Proofs.Safety
import CogMachine.Proofs.Unbroken
import Mathlib

/-!
# Listings reassemble

A listing is source text once the offsets are taken off its lines. So assembling it gives the program
back, byte for byte, whatever the program's labels were called and whichever verbs the host knows: a
listing names branch targets and verbs by number.

- `Assembly.instruction_text`: the text of an opcode is read as that opcode.
- `Assembly.assemble_texts`: texts of opcodes assemble to their encodings.
- `Program.listing_ofBytes` and `withoutOffsets_listing`: what a listing consists of.
- `listing_reassembles`: the two together, for programs from a builder and from assembly.
-/

namespace CogMachine

open Assembly

/-! ## Texts of opcodes -/

namespace Opcode

/-- **Listable opcodes:** the operand is listed in a form that scripts have. -/
structure Listable (o : Opcode) : Prop where
  value : ∀ v, o = push v → v.Listable
  address : ∀ a, o.address? = some a → a < wordLimit

theorem Listable.fits {o : Opcode} (h : o.Listable) : o.Fits where
  string _ hs := (h.value _ hs).1
  address := h.address

/-- **The parts of a text:** a word, and behind a blank the operand if there is one. -/
theorem text_cases {o : Opcode} (h : o.Listable) :
    (o.text.toList = o.mnemonic.text.toList ∧ bare? o.mnemonic = some o) ∨
      ∃ operand, o.text.toList = o.mnemonic.text.toList ++ ' ' :: operand ∧ Clean operand ∧
        o.operandText = some (String.ofList operand) := by
  have hword : ∀ operand, o.operandText = some (String.ofList operand) →
      o.text.toList = o.mnemonic.text.toList ++ ' ' :: operand := by
    intro operand heq
    unfold text
    rw [heq]
    show (o.mnemonic.text ++ " " ++ String.ofList operand).toList = _
    simp only [String.toList_append, String.toList_ofList, List.append_assoc]
    rfl
  have hdigits : ∀ n, Clean (Text.digitsOfNat n) := fun n =>
    Text.clean_of_isWordChar (Text.digitsOfNat_ne_nil n) fun c => Text.isWordChar_digitsOfNat
  cases o with
  | push v => exact .inr ⟨_, hword _ rfl, Value.clean_literalChars (h.value v rfl), rfl⟩
  | memory op a => exact .inr ⟨_, hword _ rfl, hdigits a, rfl⟩
  | branch op t => exact .inr ⟨_, hword _ rfl, hdigits t, rfl⟩
  | call keeps v =>
      have hoperand : (call keeps v).operandText =
          some (String.ofList ('#' :: Text.digitsOfInt v.number.toInt)) := by
        rw [← v.toList_text, String.ofList_toList]
        rfl
      refine .inr ⟨_, hword _ hoperand, Text.clean_of_isWordChar (by simp) ?_, hoperand⟩
      intro c hc
      rcases List.mem_cons.1 hc with rfl | hc
      · rfl
      · exact Text.isWordChar_digitsOfInt hc
  | dup | ret | unary op | binary op => exact .inl ⟨rfl, rfl⟩

theorem clean_text {o : Opcode} (h : o.Listable) : Clean o.text.toList := by
  obtain ⟨hne, -, hword⟩ := o.mnemonic.text_cases
  have hchars : ∀ c ∈ o.mnemonic.text.toList, Text.isWordChar c = true := fun c hc => (hword c hc).1
  rcases text_cases h with ⟨heq, -⟩ | ⟨operand, heq, hclean, -⟩
  · rw [heq]
    exact Text.clean_of_isWordChar hne hchars
  · have hkept := Text.clean_of_isWordChar hne hchars
    rw [heq]
    refine ⟨by simp, ?_, ⟨?_, ?_⟩, ?_⟩
    · rw [List.mem_append, List.mem_cons]
      rintro (hc | hc | hc)
      · exact hkept.newline hc
      · cases hc
      · exact hclean.newline hc
    · intro c hc
      rw [List.head?_append_of_ne_nil _ hne] at hc
      exact hkept.trimmed.head c hc
    · intro c hc
      rw [List.getLast?_append_cons, List.getLast?_cons_of_ne_nil hclean.nonempty] at hc
      exact hclean.trimmed.last c hc
    · have hcut : o.mnemonic.text.toList ++ ' ' :: operand =
          (o.mnemonic.text.toList ++ [' ']) ++ operand := by simp
      rw [hcut, Text.dropComment_append, hclean.comment]
      intro c hc
      rcases List.mem_append.1 hc with hc | hc
      · exact ⟨(Text.isWordChar_cases (hchars c hc)).2.1, (Text.isWordChar_cases (hchars c hc)).2.2.1⟩
      · rw [List.mem_singleton.1 hc]
        decide

end Opcode

namespace Assembly

/-! ## Reading the texts -/

section Reading

variable {t : SymbolTable} {verbs : String → Option VerbId} {d : Draft} {o : Opcode}

/-- **The text of an opcode** is read as the opcode. -/
theorem instruction_text (h : o.Listable) (line : Nat) :
    instruction t verbs d line o.text.toList = .ok (d.append o) := by
  obtain ⟨-, hlower, hword⟩ := o.mnemonic.text_cases
  have hblank : ∀ c ∈ o.mnemonic.text.toList, Text.isBlank c = false :=
    fun c hc => (Text.isWordChar_cases (hword c hc).1).1
  have haddress : ∀ a, o.address? = some a → Text.unsigned? (Text.digitsOfNat a) = some a := by
    intro a ha
    exact Text.unsigned?_digitsOfNat (Nat.lt_trans (h.address a ha) (by decide))
  rcases Opcode.text_cases h with ⟨heq, hbare⟩ | ⟨operand, heq, hclean, hoperand⟩
  · unfold instruction
    rw [heq, Text.splitWord_eq_self hblank]
    simp only [hlower, String.ofList_toList, Mnemonic.ofText?_text, hbare]
    rfl
  · unfold instruction
    rw [heq, Text.splitWord_append hblank rfl]
    simp only [hlower, String.ofList_toList, Mnemonic.ofText?_text, Text.trim_cons_blank
      (show Text.isBlank ' ' = true from rfl), hclean.trimmed.trim_eq]
    cases o with
    | push v =>
        obtain rfl : v.literalChars = operand := String.ofList_injective (Option.some.inj hoperand)
        simp only [Opcode.mnemonic, Opcode.bare?, Value.ofText?_literalChars (h.value v rfl)]
    | memory op a =>
        obtain rfl : Text.digitsOfNat a = operand := String.ofList_injective (Option.some.inj hoperand)
        simp only [Opcode.mnemonic, Opcode.bare?, memoryOperand, haddress a rfl]
        rw [if_neg (by simpa using hclean.nonempty)]
        rfl
    | branch op target =>
        obtain rfl : Text.digitsOfNat target = operand :=
          String.ofList_injective (Option.some.inj hoperand)
        simp only [Opcode.mnemonic, Opcode.bare?, appendBranchTo, haddress target rfl]
    | call keeps v =>
        obtain rfl : v.text.toList = operand := by
          have heq := congrArg String.toList (Option.some.inj hoperand)
          rwa [String.toList_ofList] at heq
        simp only [Opcode.mnemonic, Opcode.bare?, VerbId.toList_text, verbOperand,
          Text.int32?_digitsOfInt]
        rfl
    | dup | ret | unary op | binary op => cases hoperand

/-- A colon in an operand ends no label. -/
theorem splitLabel?_text (h : o.Listable) : splitLabel? o.text.toList = none := by
  obtain ⟨-, -, hword⟩ := o.mnemonic.text_cases
  have hcolon : ':' ∉ o.mnemonic.text.toList := fun hc => (hword _ hc).2.1 rfl
  rcases Opcode.text_cases h with ⟨heq, -⟩ | ⟨operand, heq, -, -⟩
  · rw [splitLabel?, heq, Text.splitAt?_eq_none hcolon]
    rfl
  · rw [heq]
    exact splitLabel?_eq_none hcolon rfl operand

theorem directive?_text (o : Opcode) : directive? o.text.toList = none := by
  obtain ⟨hne, -, hword⟩ := o.mnemonic.text_cases
  have hhead : ∀ rest, o.text.toList ≠ '.' :: rest := by
    intro rest heq
    cases hm : o.mnemonic.text.toList with
    | nil => exact hne hm
    | cons c cs =>
        have hdot := (hword c (hm ▸ List.mem_cons_self)).2.2
        have hfirst : o.text.toList.head? = some c := by
          unfold Opcode.text
          cases o.operandText with
          | none => simp [hm]
          | some operand =>
              show (o.mnemonic.text ++ " " ++ operand).toList.head? = _
              simp [String.toList_append, hm]
        rw [heq] at hfirst
        exact hdot (Option.some.inj hfirst).symm
  unfold directive?
  split
  · rename_i rest heq
    exact absurd heq (hhead rest)
  · rfl

/-- A line with the text of an opcode appends it. -/
theorem takeLine_text (h : o.Listable) (p : Progress) (number : Nat) :
    takeLine t verbs p ⟨number, o.text.toList⟩ = .ok { p with draft := p.draft.append o } := by
  unfold takeLine codeLine
  simp only [directive?_text, splitLabel?_text h, instruction_text h]
  rfl

end Reading

/-- The lines of a listing without its offsets. -/
def textLines (os : List Opcode) (first : Nat) : List Line :=
  ((os.map fun o => o.text.toList).zipIdx first).map fun (text, number) => ⟨number, text⟩

section Lines

variable {t : SymbolTable} {verbs : String → Option VerbId} {os : List Opcode}

theorem textLines_cons (o : Opcode) (os : List Opcode) (first : Nat) :
    textLines (o :: os) first = ⟨first, o.text.toList⟩ :: textLines os (first + 1) := rfl

theorem declareSymbols_textLines (os : List Opcode) (first : Nat) :
    declareSymbols (textLines os first) = .ok .empty := by
  unfold declareSymbols
  induction os generalizing first with
  | nil => rfl
  | cons o os ih =>
      rw [textLines_cons, List.foldlM_cons]
      simp only [directive?_text]
      exact ih (first + 1)

theorem foldlM_textLines (h : ∀ o ∈ os, o.Listable) (p : Progress) (first : Nat) :
    (textLines os first).foldlM (takeLine t verbs) p =
      .ok { p with draft := os.foldl Draft.append p.draft } := by
  induction os generalizing p first with
  | nil => rfl
  | cons o os ih =>
      rw [List.forall_mem_cons] at h
      rw [textLines_cons, List.foldlM_cons, takeLine_text h.1]
      exact ih h.2 { p with draft := p.draft.append o } (first + 1)

/-- Appending complete opcodes only. -/
theorem foldl_append (os : List Opcode) (d : Draft) {items : List Appended}
    (h : d.builder.Records items) :
    (os.foldl Draft.append d).builder.Records (items ++ os.map .opcode) ∧
      (os.foldl Draft.append d).referenced = d.referenced := by
  induction os generalizing d items with
  | nil => simpa using h
  | cons o os ih =>
      have hnext := ih (d.append o) (h.append o)
      rw [List.foldl_cons, List.map_cons]
      rw [List.append_assoc] at hnext
      exact hnext

/-- **Texts assemble** to the encodings of their opcodes. -/
theorem assemble_texts (h : ∀ o ∈ os, o.Listable) (name : String) :
    assemble name (String.ofList (Text.joined (os.map fun o => o.text.toList))) verbs =
      .ok ⟨name, .ofBytes (os.flatMap Opcode.encode), .empty, .empty⟩ := by
  have hclean : ∀ text ∈ os.map (fun o => o.text.toList), Clean text := by
    intro text htext
    obtain ⟨o, ho, rfl⟩ := List.mem_map.1 htext
    exact Opcode.clean_text (h o ho)
  obtain ⟨hrecords, hreferenced⟩ := foldl_append os .empty Builder.Records.empty
  have hoverflow : (os.map Appended.opcode).findSome? Appended.overflow? = none := by
    rw [List.findSome?_eq_none_iff]
    intro item hitem
    obtain ⟨o, ho, rfl⟩ := List.mem_map.1 hitem
    rw [Appended.overflow?, Option.filter_eq_none_iff]
    intro a ha hle
    exact absurd ((h o ho).address a ha) (Nat.not_lt.2 (of_decide_eq_true hle))
  have hresolve : ∀ b : Builder, (os.map Appended.opcode).mapM b.resolve = .ok os := by
    intro b
    clear h hclean hrecords hreferenced hoverflow
    induction os with
    | nil => rfl
    | cons o os ih =>
        rw [List.map_cons, List.mapM_cons, ih]
        rfl
  have hfinish : (os.foldl Draft.append .empty).builder.finish =
      .ok (.ofBytes (os.flatMap Opcode.encode)) := by
    rw [Builder.finish_of_records hrecords, List.nil_append, hoverflow]
    simp only [hresolve]
    rfl
  have hlines : linesOf (String.ofList (Text.joined (os.map fun o => o.text.toList))) =
      textLines os 1 := linesOf_joined hclean
  have hundefined : undefinedReference? (os.foldl Draft.append .empty) = none := by
    rw [undefinedReference?, hreferenced]
    rfl
  refine assemble_eq_ok.2 ⟨⟨os.foldl Draft.append .empty, []⟩, ?_, ?_, hundefined, rfl, hfinish, rfl⟩
  · rw [hlines]
    exact declareSymbols_textLines ..
  · rw [hlines]
    exact foldlM_textLines h ..

end Lines

end Assembly

/-! ## What a listing consists of -/

namespace Program

variable {p : Program} {n : Nat} {os : List Opcode}

/-- A branch out of the rest of a program is refused. -/
theorem lt_of_forM_instructionsFrom (h : Spells p.bytes n (os.flatMap Opcode.encode))
    (hend : n + extent os = p.length) (hfit : ∀ o ∈ os, o.Fits)
    (hok : (p.instructionsFrom n).forM (fun i => i.map fun _ => ()) = .ok ()) :
    ∀ o ∈ os, ∀ t, o.target? = some t → t < p.length := by
  induction os generalizing n with
  | nil => simp
  | cons o os ih =>
      rw [List.forall_mem_cons] at hfit ⊢
      rw [List.flatMap_cons] at h
      rw [extent_cons] at hend
      have hpos := o.encodedLength_pos
      have hlt : n < p.length := by omega
      have hinside : ∀ t, o.target? = some t → t < p.length := by
        intro t ht
        by_contra hout
        -- The operand of such a branch is its target, so the decoder complains of it.
        obtain ⟨op, rfl⟩ : ∃ op, o = .branch op t := by
          cases o with
          | branch op t' =>
              cases ht
              exact ⟨op, rfl⟩
          | push | dup | memory | call | ret | unary | binary => cases ht
        have hvalue : wordValue (wordBytes t) = t := by
          rw [wordValue_wordBytes]
          exact Nat.mod_eq_of_lt (hfit.1.address t rfl)
        have hword : slice? p.bytes (n + 1) 4 = some (wordBytes t) := h.left.tail.slice?
        have herror : p.decode n = _ := (Instruction.Malformed.targetOutside h.left.getElem? hword
          (hvalue.symm ▸ Nat.not_lt.1 hout)).decode
        rw [instructionsFrom_of_error hlt herror] at hok
        cases hok
      refine ⟨hinside, ?_⟩
      have hdecode : p.decode n = .ok ⟨o, n, n + o.encodedLength⟩ :=
        Instruction.decode_of_spells h.left hfit.1 hinside
      rw [instructionsFrom_of_ok hlt hdecode] at hok
      have hrest : Spells p.bytes (n + o.encodedLength) (os.flatMap Opcode.encode) := by
        rw [← Opcode.length_encode]
        exact h.right
      exact ih hrest (by omega) hfit.2 hok

/-- **The listing of a valid program** has a line for each of its opcodes. -/
theorem listing_ofBytes (hfit : ∀ o ∈ os, o.Fits)
    (hvalid : (ofBytes (os.flatMap Opcode.encode)).validate = .ok ()) :
    (ofBytes (os.flatMap Opcode.encode)).listing =
      .ok (String.join ((layout 0 os).map line)) := by
  have hspells : Spells (ofBytes (os.flatMap Opcode.encode)).bytes 0 (os.flatMap Opcode.encode) :=
    ⟨[], [], by simp [ofBytes], rfl⟩
  have hinside := lt_of_forM_instructionsFrom hspells (by rw [length_ofBytes, Nat.zero_add]) hfit
    hvalid
  unfold listing
  rw [instructions_ofBytes hfit hinside, Attempt.mapM_id_map_ok]
  rfl

end Program

/-- The text behind the first colon that a space follows. -/
def behindOffset? : List Char → Option (List Char)
  | ':' :: ' ' :: text => some text
  | _ :: cs => behindOffset? cs
  | [] => none

/-- **Without offsets:** the text of a listing, every line cut behind its offset. -/
def withoutOffsets (listing : String) : String :=
  String.ofList (Text.joined ((Text.lines listing.toList).filterMap behindOffset?))

theorem behindOffset?_append {offset : List Char} (h : ':' ∉ offset) (text : List Char) :
    behindOffset? (offset ++ ':' :: ' ' :: text) = some text := by
  induction offset with
  | nil => rfl
  | cons c offset ih =>
      rw [List.mem_cons, not_or] at h
      rw [List.cons_append, behindOffset?, ih h.2]
      intro text' heq
      exact absurd heq.symm h.1

/-- **A listing without its offsets** is the texts of the opcodes. -/
theorem withoutOffsets_listing (is : List Instruction) :
    withoutOffsets (String.join (is.map Program.line)) =
      String.ofList (Text.joined (is.map fun i => i.opcode.text.toList)) := by
  have hcut : ∀ i : Instruction, behindOffset? i.listed = some i.opcode.text.toList := by
    intro i
    refine behindOffset?_append ?_ _
    intro hcolon
    rcases i.offsetText_cases hcolon with hc | hc <;> cases hc
  rw [withoutOffsets, Program.lines_join_line, List.filterMap_map, ← List.filterMap_eq_map]
  congr 2
  exact List.filterMap_congr fun i _ => hcut i

/-! ## Reassembling -/

/-- **Made by a builder:** what was appended since the builder was empty, in order. -/
inductive Builder.Makes : List Appended → Builder → Prop where
  | empty : Makes [] .empty
  | allocate {items : List Appended} {b : Builder} (h : Makes items b) : Makes items b.allocate.2
  | place {items : List Appended} {b b' : Builder} {l : Label} (h : Makes items b)
      (hl : b.place l = .ok b') : Makes items b'
  | append {items : List Appended} {b : Builder} (h : Makes items b) (o : Opcode) :
      Makes (items ++ [.opcode o]) (b.append o)
  | appendBranch {items : List Appended} {b : Builder} (h : Makes items b) (op : BranchOp)
      (l : Label) : Makes (items ++ [.branch op l]) (b.appendBranch op l)

theorem Builder.Makes.records {items : List Appended} {b : Builder} (h : Makes items b) :
    b.Records items := by
  induction h with
  | empty => exact .empty
  | allocate _ ih => exact ih.allocate
  | place _ hl ih => exact ih.place hl
  | append _ o ih => exact ih.append o
  | appendBranch _ op l ih => exact ih.appendBranch op l

/-- **Reassembling:** the program has a listing, and the listing without its offsets assembles to the
program again, for a script of any name and a host with any verbs. -/
def Program.Reassembles (p : Program) : Prop :=
  ∃ listing, p.listing = .ok listing ∧ ∀ (name : String) (verbs : String → Option VerbId),
    ∃ script, assemble name (withoutOffsets listing) verbs = .ok script ∧ script.program = p

theorem Program.reassembles_ofBytes {os : List Opcode} (h : ∀ o ∈ os, o.Listable)
    (hvalid : (ofBytes (os.flatMap Opcode.encode)).validate = .ok ()) :
    (ofBytes (os.flatMap Opcode.encode)).Reassembles := by
  have hlaid : (layout 0 os).map Instruction.opcode = os := by
    generalize 0 = offset
    clear h hvalid
    induction os generalizing offset with
    | nil => rfl
    | cons o os ih => rw [layout, List.map_cons, ih]
  have htexts : withoutOffsets (String.join ((layout 0 os).map line)) =
      String.ofList (Text.joined (os.map fun o => o.text.toList)) := by
    rw [withoutOffsets_listing]
    conv_rhs => rw [← hlaid, List.map_map]
    rfl
  refine ⟨_, listing_ofBytes (fun o ho => (h o ho).fits) hvalid, ?_⟩
  intro name verbs
  rw [htexts]
  exact ⟨_, assemble_texts h name, rfl⟩

/-- **Listings reassemble.** A valid program with listable literals is assembled again, byte for byte,
from its listing: whether a builder has finished it or it was assembled from a source. -/
theorem listing_reassembles :
    (∀ (items : List Appended) (b : Builder) (p : Program), Builder.Makes items b →
      b.finish = .ok p → p.validate = .ok () →
      (∀ v, .opcode (.push v) ∈ items → v.Listable) → p.Reassembles) ∧
    ∀ (name source : String) (verbs : String → Option VerbId) (script : Script),
      assemble name source verbs = .ok script →
      ∃ os, Means (linesOf source) verbs os ∧
        script.program = .ofBytes (os.flatMap Opcode.encode) ∧
        (script.program.validate = .ok () → (∀ v, .push v ∈ os → v.Listable) →
          script.program.Reassembles) := by
  constructor
  · intro items b p hmakes hfinish hvalid hliterals
    obtain ⟨os, hos, rfl, haddress⟩ := hmakes.records.finish_cases hfinish
    refine Program.reassembles_ofBytes (fun o ho => ⟨?_, haddress o ho⟩) hvalid
    rintro v rfl
    obtain ⟨item, hitem, hresolve⟩ := Attempt.exists_of_mem_mapM hos ho
    cases item with
    | opcode o =>
        cases hresolve
        exact hliterals v hitem
    | branch op l =>
        obtain ⟨_, -, -, heq⟩ := Builder.resolve_branch_eq_ok.1 hresolve
        cases heq
  · intro name source verbs script h
    obtain ⟨os, hmeans, hp, haddress, -⟩ := emitted_of_assemble h
    refine ⟨os, hmeans, hp, ?_⟩
    rw [hp]
    intro hvalid hliterals
    refine Program.reassembles_ofBytes (fun o ho => ⟨?_, haddress o ho⟩) hvalid
    rintro v rfl
    exact hliterals v ho

/-- A source with a float, a string that holds separators, a vector and a branch back. -/
def repeating : String :=
  "push 1.5\npush \"a: b;\\n\"\npush (0/1/0)\nagain:\npush 3\nbt again\nneg\nret"

/-- It reassembles, and so does what a builder makes of a branch ahead over an infinite vector. -/
theorem listing_reassembles_repeating :
    (∃ b p, Builder.Makes [.branch .jump ⟨0⟩, .opcode (.push (.vector ⟨⟨0x7f800000⟩, ⟨0⟩, ⟨0⟩⟩)),
        .opcode .ret] b ∧ b.finish = .ok p ∧ p.validate = .ok () ∧ p.Reassembles) ∧
      ∃ script, assemble "demo" repeating (fun _ => none) = .ok script ∧
        script.program.validate = .ok () ∧ script.program.Reassembles := by
  constructor
  · let ahead : Opcode := .push (.vector ⟨⟨0x7f800000⟩, ⟨0⟩, ⟨0⟩⟩)
    let branched := (Builder.empty.allocate.2.appendBranch .jump ⟨0⟩).append ahead
    let placed : Builder := { branched with labels := #[some 19] }
    have hplace : branched.place ⟨0⟩ = .ok placed := by decide +kernel
    have hmakes : Builder.Makes [.branch .jump ⟨0⟩, .opcode ahead, .opcode .ret]
        (placed.append .ret) :=
      .append (.place (.append (.appendBranch (.allocate .empty) .jump ⟨0⟩) ahead) hplace) .ret
    have hfinish : (placed.append .ret).finish =
        .ok (.ofBytes ([.branch .jump 19, ahead, .ret].flatMap Opcode.encode)) := by
      decide +kernel
    have hvalid : (Program.ofBytes ([.branch .jump 19, ahead, .ret].flatMap Opcode.encode)).validate =
        .ok () := by
      decide +kernel
    refine ⟨_, _, hmakes, hfinish, hvalid, listing_reassembles.1 _ _ _ hmakes hfinish hvalid ?_⟩
    intro v hv
    obtain rfl : v = .vector ⟨⟨0x7f800000⟩, ⟨0⟩, ⟨0⟩⟩ := by simpa [ahead] using hv
    decide +kernel
  · let os : List Opcode := [.push (.float ⟨0x3fc00000⟩), .push (.string "a: b;\n"),
      .push (.vector ⟨⟨0⟩, ⟨0x3f800000⟩, ⟨0⟩⟩), .push (.int 3), .branch .ifTrue 32, .unary .neg, .ret]
    have h : assemble "demo" repeating (fun _ => none) =
        .ok ⟨"demo", .ofBytes (os.flatMap Opcode.encode), .empty, .empty⟩ := by
      decide +kernel
    obtain ⟨os', hmeans, -, hreassembles⟩ := listing_reassembles.2 _ _ _ _ h
    obtain rfl : os' = os := hmeans.unique (by decide +kernel)
    have hvalid : (Program.ofBytes (os.flatMap Opcode.encode)).validate = .ok () := by
      decide +kernel
    refine ⟨_, h, hvalid, hreassembles hvalid ?_⟩
    have hpushed : ∀ v, Opcode.push v ∈ os → v ∈ [.float ⟨0x3fc00000⟩, .string "a: b;\n",
        .vector ⟨⟨0⟩, ⟨0x3f800000⟩, ⟨0⟩⟩, .int 3] := by
      simp [os]
    have hlistable : ∀ v ∈ [Value.float ⟨0x3fc00000⟩, .string "a: b;\n",
        .vector ⟨⟨0⟩, ⟨0x3f800000⟩, ⟨0⟩⟩, .int 3], v.Listable := by
      decide +kernel
    exact fun v hv => hlistable v (hpushed v hv)

end CogMachine
