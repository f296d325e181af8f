import CogMachine.Proofs.Building
import CogMachine.Proofs.Codec

/-!
# What a builder finishes to

A builder is called in any order: labels are allocated, placed before or after their use or not at all,
and placed in vain. Whether it finishes, and to which program, is told here by the list of the calls alone.

- `Builder.PlacedAt`: which call placed a label, and where; `Builder.position?_after` says that the builder
  knows exactly that.
- `Builder.appended`: what the calls append, each at the offset that the builder showed just before.
- `Builder.finish_after`: which failure comes first, and otherwise that the program decodes to what was
  appended, with every label replaced by its offset.
-/

namespace CogMachine.Builder

/-! ## Calls -/

/-- **A call of a builder.** -/
inductive Call where
  | label
  | place (l : Label)
  | append (o : Opcode)
  | branch (op : BranchOp) (l : Label)
  deriving DecidableEq, Inhabited, Repr

def Call.item? : Call → Option Appended
  | append o => some (.opcode o)
  | branch op l => some (.branch op l)
  | label | place _ => none

/-- The builder after a call. A label that cannot be placed leaves it as it is. -/
def call (b : Builder) : Call → Builder
  | .label => b.allocate.2
  | .place l =>
    match b.place l with
    | .ok b' => b'
    | .error _ => b
  | .append o => b.append o
  | .branch op l => b.appendBranch op l

def after (calls : List Call) : Builder := calls.foldl call empty

/-- **Appended** by calls of a builder, each item at the offset that the builder showed just before. -/
def appended (b : Builder) : List Call → List (Nat × Appended)
  | [] => []
  | c :: calls => (c.item?.map fun item => (b.offset, item)).toList ++ appended (b.call c) calls

/-- **Placed.** One of the calls placed the label, at the offset that the builder showed then. -/
def PlacedAt (calls : List Call) (l : Label) (n : Nat) : Prop :=
  ∃ earlier later, calls = earlier ++ .place l :: later ∧
    (∃ b, (after earlier).place l = .ok b) ∧ (after earlier).offset = n

variable {b : Builder} {calls : List Call} {l : Label} {n : Nat}

theorem call_place_ok {b' : Builder} (h : b.place l = .ok b') : b.call (.place l) = b' := by
  simp only [call, h]

theorem call_place_error {e : AssemblyError} (h : b.place l = .error e) : b.call (.place l) = b := by
  simp only [call, h]

theorem after_concat (calls : List Call) (c : Call) : after (calls ++ [c]) = (after calls).call c := by
  rw [after, List.foldl_append]
  rfl

/-! ## Labels -/

theorem placedAt_concat {c : Call} : PlacedAt (calls ++ [c]) l n ↔
    PlacedAt calls l n ∨
      c = .place l ∧ (∃ b, (after calls).place l = .ok b) ∧ (after calls).offset = n := by
  constructor
  · rintro ⟨earlier, later, hcalls, hplaced, hn⟩
    rcases List.eq_nil_or_concat later with rfl | ⟨later, d, rfl⟩
    · obtain ⟨rfl, hlast⟩ := List.append_inj' hcalls rfl
      exact .inr ⟨List.singleton_inj.1 hlast, hplaced, hn⟩
    · rw [List.concat_eq_append, ← List.cons_append, ← List.append_assoc] at hcalls
      obtain ⟨rfl, -⟩ := List.append_inj' hcalls rfl
      exact .inl ⟨earlier, later, rfl, hplaced, hn⟩
  · rintro (⟨earlier, later, rfl, hplaced, hn⟩ | ⟨rfl, hplaced, hn⟩)
    · exact ⟨earlier, later ++ [c], by simp, hplaced, hn⟩
    · exact ⟨calls, [], rfl, hplaced, hn⟩

/-- **A builder knows** which labels were placed, and where. The induction is on the calls from their end;
only the last one can have placed what the ones before it have not. -/
theorem position?_after : (after calls).position? l = some n ↔ PlacedAt calls l n := by
  induction calls using List.reverseRecOn generalizing l n with
  | nil =>
      constructor
      · intro h
        cases h
      · rintro ⟨earlier, later, h, -⟩
        cases earlier <;> cases h
  | append_singleton calls c ih =>
      rw [placedAt_concat, after_concat, ← ih]
      cases c with
      | label =>
          have hsame : ((after calls).call .label).position? l = (after calls).position? l :=
            position?_allocate _ l
          simp [hsame]
      | append o =>
          have hsame : ((after calls).call (.append o)).position? l = (after calls).position? l := rfl
          simp [hsame]
      | branch op l' =>
          have hsame : ((after calls).call (.branch op l')).position? l = (after calls).position? l := rfl
          simp [hsame]
      | place l' =>
          cases hplace : (after calls).place l' with
          | error e =>
              have hnot : ¬ ∃ b, (after calls).place l' = .ok b := by simp [hplace]
              rw [call_place_error hplace]
              constructor
              · exact .inl
              · rintro (h | ⟨heq, hplaced, -⟩)
                · exact h
                · cases heq
                  exact absurd hplaced hnot
          | ok b' =>
              obtain ⟨-, hnowhere, -⟩ := place_eq_ok hplace
              rw [call_place_ok hplace, position?_of_place hplace]
              by_cases hl : l = l'
              · subst hl
                rw [if_pos rfl, hnowhere, hplace]
                simp
              · rw [if_neg hl]
                constructor
                · exact .inl
                · rintro (h | ⟨heq, -⟩)
                  · exact h
                  · exact absurd (Call.place.inj heq).symm hl

/-! ## Items -/

theorem appended_items (b : Builder) (calls : List Call) :
    (b.appended calls).map Prod.snd = calls.filterMap Call.item? := by
  induction calls generalizing b with
  | nil => rfl
  | cons c calls ih =>
      rw [appended, List.map_append, ih, List.filterMap_cons]
      cases c <;> rfl

theorem records_call {items : List Appended} (h : b.Records items) (c : Call) :
    (b.call c).Records (items ++ c.item?.toList) := by
  cases c with
  | label =>
      rw [Call.item?, Option.toList_none, List.append_nil]
      exact h.allocate
  | append o => exact h.append o
  | branch op l => exact h.appendBranch op l
  | place l =>
      rw [Call.item?, Option.toList_none, List.append_nil]
      cases hl : b.place l with
      | ok b' =>
          rw [call_place_ok hl]
          exact h.place hl
      | error e =>
          rw [call_place_error hl]
          exact h

theorem records_after (calls : List Call) : (after calls).Records (calls.filterMap Call.item?) := by
  induction calls using List.reverseRecOn with
  | nil => exact .empty
  | append_singleton calls c ih =>
      rw [after_concat, List.filterMap_append]
      have hitem : [c].filterMap Call.item? = c.item?.toList := by
        cases c <;> rfl
      rw [hitem]
      exact records_call ih c

/-- A call moves the offset by the length of what it appends. -/
theorem offset_call (b : Builder) (c : Call) :
    (b.call c).offset = b.offset + (c.item?.toList.map Appended.length).sum := by
  cases c with
  | label => rfl
  | append o => simp [call, Call.item?, Appended.length, Appended.placeholder]
  | branch op l => simp [call, Call.item?, Appended.length, Appended.placeholder, Opcode.encodedLength]
  | place l =>
      cases hl : b.place l with
      | error e =>
          rw [call_place_error hl]
          rfl
      | ok b' =>
          rw [call_place_ok hl]
          obtain ⟨-, -, rfl⟩ := place_eq_ok hl
          rfl

/-- **What stands for an item** in the program: the opcode itself, or the branch to the offset where its
label was placed. It starts at the item's offset. -/
def Stands (calls : List Call) (item : Nat × Appended) (i : Instruction) : Prop :=
  i.offset = item.1 ∧ i.next = item.1 + i.opcode.encodedLength ∧
    match item.2 with
    | .opcode o => i.opcode = o
    | .branch op l => ∃ n, PlacedAt calls l n ∧ i.opcode = .branch op n

/-- Items that are resolved with the labels of all calls stand where they were appended. -/
theorem stands_layout {cs : List Call} {os : List Opcode}
    (h : List.Forall₂ (fun item o => (after calls).resolve item.2 = .ok o) (b.appended cs) os) :
    List.Forall₂ (Stands calls) (b.appended cs) (layout b.offset os) := by
  induction cs generalizing b os with
  | nil =>
      cases h
      exact .nil
  | cons c cs ih =>
      have hoffset := offset_call b c
      rw [appended] at h ⊢
      cases hitem : c.item? with
      | none =>
          rw [hitem] at h hoffset
          have hsame : (b.call c).offset = b.offset := hoffset
          rw [← hsame]
          exact ih h
      | some item =>
          rw [hitem] at h hoffset
          obtain ⟨o, os, ho, hos, rfl⟩ := List.forall₂_cons_left_iff.1 h
          have hnext : (b.call c).offset = b.offset + o.encodedLength := by
            rw [hoffset, encodedLength_of_resolve ho]
            rfl
          have hrest := ih hos
          rw [hnext] at hrest
          refine .cons ⟨rfl, rfl, ?_⟩ hrest
          cases item with
          | opcode o' =>
              cases ho
              rfl
          | branch op l =>
              obtain ⟨target, htarget, -, rfl⟩ := resolve_branch_eq_ok.1 ho
              exact ⟨target, position?_after.1 htarget, rfl⟩

/-! ## Finishing -/

/-- A call that appends an opcode with an address that no operand can hold. -/
def Call.Oversized (c : Call) (a : Nat) : Prop :=
  ∃ o, c = .append o ∧ o.address? = some a ∧ wordLimit ≤ a

/-- **Bound.** If the call appends a branch to a label, that label was placed at an offset that an operand
can hold. -/
def Bound (calls : List Call) (c : Call) : Prop :=
  ∀ op l, c = .branch op l → ∃ n, PlacedAt calls l n ∧ n < wordLimit

theorem overflow?_eq_none {c : Call} (h : ∀ a, ¬ c.Oversized a) {item : Appended}
    (hitem : c.item? = some item) : item.overflow? = none := by
  cases c with
  | label | place l => cases hitem
  | branch op l =>
      cases hitem
      rfl
  | append o =>
      cases hitem
      rw [Appended.overflow?, Option.filter_eq_none_iff]
      intro a ha hlarge
      exact h a ⟨o, rfl, ha, of_decide_eq_true hlarge⟩

theorem findSome?_overflow?_eq_none (h : ∀ c ∈ calls, ∀ a, ¬ c.Oversized a) :
    (calls.filterMap Call.item?).findSome? Appended.overflow? = none := by
  rw [List.findSome?_eq_none_iff]
  intro item hmem
  obtain ⟨c, hc, hitem⟩ := List.mem_filterMap.1 hmem
  exact overflow?_eq_none (h c hc) hitem

/-- Items of bound calls are resolved. -/
theorem exists_resolve {cs : List Call} (h : ∀ c ∈ cs, Bound calls c) :
    ∀ item ∈ cs.filterMap Call.item?, ∃ o, (after calls).resolve item = .ok o := by
  intro item hmem
  obtain ⟨c, hc, hitem⟩ := List.mem_filterMap.1 hmem
  cases c with
  | label | place l => cases hitem
  | append o =>
      cases hitem
      exact ⟨o, rfl⟩
  | branch op l =>
      cases hitem
      obtain ⟨n, hn, hlt⟩ := h _ hc op l rfl
      exact ⟨_, resolve_branch_eq_ok.2 ⟨n, position?_after.2 hn, hlt, rfl⟩⟩

theorem finish_of_oversized {earlier later : List Call} {c : Call} {a : Nat}
    (hcalls : calls = earlier ++ c :: later) (hc : c.Oversized a)
    (hearlier : ∀ c' ∈ earlier, ∀ a', ¬ c'.Oversized a') :
    (after calls).finish = .error (.addressOverflow a) := by
  obtain ⟨o, rfl, ha, hlarge⟩ := hc
  have hfirst : (calls.filterMap Call.item?).findSome? Appended.overflow? = some a := by
    have hlast : (Appended.opcode o).overflow? = some a := by
      simp [Appended.overflow?, ha, hlarge]
    rw [hcalls, List.filterMap_append, List.findSome?_append, findSome?_overflow?_eq_none hearlier]
    simp [Call.item?, hlast]
  rw [finish_of_records (records_after calls), hfirst]

theorem finish_of_unbound {earlier later : List Call} {op : BranchOp} {e : AssemblyError}
    (hsizes : ∀ c ∈ calls, ∀ a, ¬ c.Oversized a) (hcalls : calls = earlier ++ .branch op l :: later)
    (hearlier : ∀ c ∈ earlier, Bound calls c) (he : (after calls).resolve (.branch op l) = .error e) :
    (after calls).finish = .error e := by
  have hitems : calls.filterMap Call.item? =
      earlier.filterMap Call.item? ++ .branch op l :: later.filterMap Call.item? := by
    conv_lhs => rw [hcalls]
    rw [List.filterMap_append]
    rfl
  rw [finish_of_records (records_after calls), findSome?_overflow?_eq_none hsizes, hitems,
    Attempt.mapM_eq_error (exists_resolve hearlier) he]
  rfl

/-- An opcode of the program is one that was appended, or a branch to where its label was placed. -/
theorem exists_call_of_resolve {item : Appended} {o : Opcode}
    (hitem : item ∈ calls.filterMap Call.item?) (ho : (after calls).resolve item = .ok o) :
    .append o ∈ calls ∨ ∃ op l n, .branch op l ∈ calls ∧ PlacedAt calls l n ∧ o = .branch op n := by
  obtain ⟨c, hc, hcall⟩ := List.mem_filterMap.1 hitem
  cases c with
  | label | place l => cases hcall
  | append o' =>
      cases hcall
      cases ho
      exact .inl hc
  | branch op l =>
      cases hcall
      obtain ⟨n, hn, -, rfl⟩ := resolve_branch_eq_ok.1 ho
      exact .inr ⟨op, l, n, hc, position?_after.1 hn, rfl⟩

/-- **Programs** that a builder finishes decode to what was appended. -/
theorem instructions_of_finish {p : Program} (hp : (after calls).finish = .ok p)
    (hstrings : ∀ s, .append (.push (.string s)) ∈ calls → s.utf8ByteSize < wordLimit)
    (htargets : ∀ o t, .append o ∈ calls → o.target? = some t → t < p.length)
    (hlabels : ∀ op l n, .branch op l ∈ calls → PlacedAt calls l n → n < p.length) :
    ∃ is, p.instructions = is.map .ok ∧ List.Forall₂ (Stands calls) (empty.appended calls) is := by
  obtain ⟨os, hos, rfl, haddress⟩ := (records_after calls).finish_cases hp
  have hcall : ∀ o ∈ os, .append o ∈ calls ∨
      ∃ op l n, .branch op l ∈ calls ∧ PlacedAt calls l n ∧ o = .branch op n := by
    intro o ho
    obtain ⟨item, hitem, hresolve⟩ := Attempt.exists_of_mem_mapM hos ho
    exact exists_call_of_resolve hitem hresolve
  have hfits : ∀ o ∈ os, o.Fits := by
    intro o ho
    refine ⟨?_, haddress o ho⟩
    rintro s rfl
    rcases hcall _ ho with hmem | ⟨op, l, n, -, -, hbranch⟩
    · exact hstrings s hmem
    · cases hbranch
  have hinside : ∀ o ∈ os, ∀ t, o.target? = some t →
      t < (Program.ofBytes (os.flatMap Opcode.encode)).length := by
    intro o ho t ht
    rcases hcall o ho with hmem | ⟨op, l, n, hmem, hn, rfl⟩
    · exact htargets o t hmem ht
    · rw [← show n = t from Option.some.inj ht]
      exact hlabels op l n hmem hn
  refine ⟨layout 0 os, Program.instructions_ofBytes hfits hinside, ?_⟩
  have hresolved := Attempt.forall₂_of_mapM hos
  rw [← appended_items empty calls, List.forall₂_map_left_iff] at hresolved
  exact stands_layout hresolved

/-- **Builders are correct.** Whatever was called, finishing fails with the first address that no operand
can hold. If there is none, it fails at the first branch whose label was placed nowhere, or too far for an
operand. Otherwise it succeeds, and the program decodes to what was appended, in order, each at the offset
that the builder showed just before and each label replaced by the offset shown when it was placed. -/
theorem finish_after (calls : List Call) :
    (∀ earlier c later a, calls = earlier ++ c :: later → c.Oversized a →
      (∀ c' ∈ earlier, ∀ a', ¬ c'.Oversized a') →
      (after calls).finish = .error (.addressOverflow a)) ∧
    ((∀ c ∈ calls, ∀ a, ¬ c.Oversized a) →
      (∀ earlier op l later, calls = earlier ++ .branch op l :: later →
        (∀ c ∈ earlier, Bound calls c) →
        ((∀ n, ¬ PlacedAt calls l n) → (after calls).finish = .error (.unresolvedLabel l.text)) ∧
        ∀ n, PlacedAt calls l n → wordLimit ≤ n →
          (after calls).finish = .error (.addressOverflow n)) ∧
      ((∀ c ∈ calls, Bound calls c) → ∃ p, (after calls).finish = .ok p)) ∧
    ∀ p, (after calls).finish = .ok p →
      (∀ s, .append (.push (.string s)) ∈ calls → s.utf8ByteSize < wordLimit) →
      (∀ o t, .append o ∈ calls → o.target? = some t → t < p.length) →
      (∀ op l n, .branch op l ∈ calls → PlacedAt calls l n → n < p.length) →
      ∃ is, p.instructions = is.map .ok ∧
        List.Forall₂ (Stands calls) (empty.appended calls) is := by
  refine ⟨?_, ?_, ?_⟩
  · intro earlier c later a hcalls hc hearlier
    exact finish_of_oversized hcalls hc hearlier
  · intro hsizes
    constructor
    · intro earlier op l later hcalls hearlier
      constructor
      · intro hnowhere
        have hposition : (after calls).position? l = none := by
          rw [Option.eq_none_iff_forall_ne_some]
          exact fun n hn => hnowhere n (position?_after.1 hn)
        apply finish_of_unbound hsizes hcalls hearlier
        simp only [resolve, hposition]
      · intro n hn hfar
        have hposition := position?_after.2 hn
        apply finish_of_unbound hsizes hcalls hearlier
        simp only [resolve, hposition, if_neg (Nat.not_lt.2 hfar)]
    · intro hbound
      obtain ⟨os, hos⟩ := Attempt.exists_mapM (exists_resolve hbound)
      rw [finish_of_records (records_after calls), findSome?_overflow?_eq_none hsizes, hos]
      exact ⟨_, rfl⟩
  · intro p hp hstrings htargets hlabels
    exact instructions_of_finish hp hstrings htargets hlabels

/-- Calls that use a label before it is placed, place it once more in vain, and use it again. -/
def leaping : List Call :=
  [.label, .append (.push (.bool true)), .branch .ifFalse ⟨0⟩, .append .dup, .place ⟨0⟩,
    .append .ret, .place ⟨0⟩, .branch .jump ⟨0⟩]

/-- Both branches lead to the `ret`; a label of another builder is reported. -/
theorem finish_after_leaping :
    (∃ p is, (after leaping).finish = .ok p ∧ p.instructions = is.map .ok ∧
      List.Forall₂ (Stands leaping) (empty.appended leaping) is) ∧
    (after (leaping ++ [.branch .jump ⟨7⟩])).finish = .error (.unresolvedLabel "L7") := by
  constructor
  · have hfinish : (after leaping).finish =
        .ok ⟨#[1, 3, 1, 35, 9, 0, 0, 0, 2, 50, 32, 9, 0, 0, 0]⟩ := by
      decide +kernel
    have hlabels : ∀ op l n, .branch op l ∈ leaping → PlacedAt leaping l n → n < 15 := by
      intro op l n hmem hn
      have hzero : l = ⟨0⟩ := by
        simp [leaping] at hmem
        tauto
      have hposition := position?_after.2 hn
      have hnine : (after leaping).position? ⟨0⟩ = some 9 := by decide +kernel
      rw [hzero, hnine] at hposition
      cases hposition
      decide
    have htargets : ∀ o t, .append o ∈ leaping → o.target? = some t → t < 15 := by
      intro o t hmem ht
      simp [leaping] at hmem
      rcases hmem with rfl | rfl | rfl <;> cases ht
    obtain ⟨is, his, hstands⟩ := (finish_after leaping).2.2 _ hfinish (by simp [leaping]) htargets hlabels
    exact ⟨_, is, hfinish, his, hstands⟩
  · have hsizes : ∀ c ∈ leaping ++ [.branch .jump ⟨7⟩], ∀ a, ¬ c.Oversized a := by
      rintro c hc a ⟨o, rfl, ha, -⟩
      simp [leaping] at hc
      rcases hc with rfl | rfl | rfl <;> cases ha
    have hzero : PlacedAt (leaping ++ [.branch .jump ⟨7⟩]) ⟨0⟩ 9 := position?_after.1 (by decide +kernel)
    have hbound : ∀ c ∈ leaping, Bound (leaping ++ [.branch .jump ⟨7⟩]) c := by
      rintro c hc op l rfl
      refine ⟨9, ?_, by decide⟩
      have hl : l = ⟨0⟩ := by
        simp [leaping] at hc
        tauto
      rwa [hl]
    have hnowhere : ∀ n, ¬ PlacedAt (leaping ++ [.branch .jump ⟨7⟩]) ⟨7⟩ n := by
      intro n hn
      cases position?_after.2 hn
    exact (((finish_after _).2.1 hsizes).1 leaping .jump ⟨7⟩ [] rfl hbound).1 hnowhere

end CogMachine.Builder
