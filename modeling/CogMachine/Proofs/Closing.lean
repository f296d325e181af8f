import CogMachine.Proofs.Assembly
import CogMachine.Proofs.Literals
import CogMachine.Proofs.Padding
import CogMachine.Proofs.Redrafting

/-!
# Accepted lines are closed

A line that is accepted has no string left open, so a comment may be put behind it. Only literals have quotes
in them, and these close what they open; nothing else that is accepted has a quote.

- `quote_notMem_of_…`: one lemma for each reader that accepts no quote.
- `Value.closed_of_ofText?`: literals.
- `closed_of_instruction`, `closed_of_declareSymbol` and `closed_of_takeLine`: the texts of a source.
- `closed_of_assemble`: every line of a source that assembles.
-/

namespace CogMachine

namespace Text

variable {cs before after : List Char}

/-! ## Blanks at the ends -/

theorem exists_trim (cs : List Char) : ∃ before after, (∀ c ∈ before, isBlank c = true) ∧
    (∀ c ∈ after, isBlank c = true) ∧ cs = before ++ (trim cs ++ after) := by
  refine ⟨cs.takeWhile isBlank, ((trimStart cs).reverse.takeWhile isBlank).reverse,
    fun c hc => List.mem_takeWhile_imp hc, fun c hc => List.mem_takeWhile_imp (List.mem_reverse.1 hc), ?_⟩
  have hend : trim cs ++ ((trimStart cs).reverse.takeWhile isBlank).reverse = trimStart cs := by
    rw [trim, trimEnd, ← List.reverse_append, List.takeWhile_append_dropWhile, List.reverse_reverse]
  rw [hend]
  exact List.takeWhile_append_dropWhile.symm

theorem closed_of_trim (h : Closed (trim cs)) : Closed cs := by
  obtain ⟨before, after, hbefore, hafter, heq⟩ := exists_trim cs
  rw [heq]
  exact (closed_of_isBlank hbefore).append (h.append (closed_of_isBlank hafter))

theorem quote_notMem_of_trim (h : '"' ∉ trim cs) : '"' ∉ cs := by
  obtain ⟨before, after, hbefore, hafter, heq⟩ := exists_trim cs
  have hblank : isBlank '"' = false := by decide
  rw [heq]
  simp only [List.mem_append, not_or]
  refine ⟨fun hc => ?_, h, fun hc => ?_⟩
  · rw [hbefore _ hc] at hblank
    cases hblank
  · rw [hafter _ hc] at hblank
    cases hblank

theorem eq_of_splitAt? {separator : Char} (h : splitAt? separator cs = some (before, after)) :
    cs = before ++ separator :: after := by
  unfold splitAt? at h
  split at h
  · cases h
  · rename_i c rest hdrop
    cases h
    have hhead := List.head?_dropWhile_not (fun c => decide (c ≠ separator)) cs
    rw [hdrop] at hhead
    have hc : c = separator := by simpa using hhead
    rw [← hc, ← hdrop, hc]
    exact List.takeWhile_append_dropWhile.symm

/-! ## Texts without a quote -/

/-- A text without quotes that is no comment is closed. -/
theorem closed_of_quote_notMem (h : '"' ∉ cs) (hkept : dropComment cs = cs) : Closed cs := by
  apply closed_of_forall
  induction cs with
  | nil => simp
  | cons c cs ih =>
      rw [List.mem_cons, not_or] at h
      rw [dropComment, dropComment.outside] at hkept
      split at hkept
      · cases hkept
      · rename_i hsemicolon
        rw [if_neg (Ne.symm h.1)] at hkept
        rw [List.forall_mem_cons]
        exact ⟨⟨hsemicolon, Ne.symm h.1⟩, ih h.2 (List.cons.inj hkept).2⟩

theorem Closed.dropComment_right (h : Closed before) (hkept : dropComment (before ++ after) = before ++ after) :
    dropComment after = after := by
  rw [h after] at hkept
  exact List.append_cancel_left hkept

theorem dropComment_left (hkept : dropComment (before ++ after) = before ++ after) :
    dropComment before = before := by
  have hprefix : before <+: dropComment (before ++ after) := by
    rw [hkept]
    exact List.prefix_append before after
  exact dropComment_prefix_eq hprefix

/-- Letters in lower case are no quotes. -/
theorem quote_notMem_of_lower (h : '"' ∉ cs.map Char.toLower) : '"' ∉ cs :=
  fun hc => h (List.mem_map.2 ⟨'"', hc, by decide⟩)

theorem quote_notMem_of_nat? {n : Nat} (h : nat? cs = some n) : '"' ∉ cs := by
  intro hc
  unfold nat? at h
  split at h
  · rename_i hdigits
    have hdigit := List.all_eq_true.1 (Bool.and_eq_true_iff.1 hdigits).2 '"' hc
    cases hdigit
  · cases h

theorem quote_notMem_of_splitSign (h : '"' ∉ (splitSign cs).2) : '"' ∉ cs := by
  unfold splitSign at h
  split at h
  · simpa using h
  · simpa using h
  · exact h

theorem quote_notMem_of_int32? {n : Int32} (h : int32? cs = some n) : '"' ∉ cs := by
  unfold int32? at h
  obtain ⟨n, hn, -⟩ := Option.bind_eq_some_iff.1 h
  exact quote_notMem_of_splitSign (quote_notMem_of_nat? hn)

theorem quote_notMem_of_unsigned? {n : Nat} (h : unsigned? cs = some n) : '"' ∉ cs := by
  unfold unsigned? at h
  obtain ⟨hn, -⟩ := Option.filter_eq_some_iff.1 h
  split at hn
  · simpa using quote_notMem_of_nat? hn
  · exact quote_notMem_of_nat? hn

theorem quote_notMem_of_splitFields {isSeparator : Char → Bool} (hquote : isSeparator '"' = false)
    (h : ∀ field ∈ splitFields isSeparator cs, '"' ∉ field) : '"' ∉ cs := by
  induction cs with
  | nil => simp
  | cons c cs ih =>
      rw [splitFields] at h
      split at h
      · rename_i hc
        rw [List.forall_mem_cons] at h
        rw [List.mem_cons, not_or]
        refine ⟨?_, ih h.2⟩
        rintro rfl
        rw [hc] at hquote
        cases hquote
      · split at h
        · rename_i field fields hfields
          rw [List.forall_mem_cons, List.mem_cons, not_or] at h
          rw [List.mem_cons, not_or]
          refine ⟨h.1.1, ih ?_⟩
          rw [hfields, List.forall_mem_cons]
          exact ⟨h.1.2, h.2⟩
        · rename_i hfields
          rw [List.forall_mem_singleton] at h
          have hrest := ih (by simp [hfields])
          rw [List.mem_cons, not_or]
          exact ⟨by simpa using h, hrest⟩

end Text

open Text (Closed dropComment)

variable {cs : List Char}

theorem Decimal.quote_notMem_of_exponent? {e : Int} (h : exponent? cs = some e) : '"' ∉ cs := by
  cases cs with
  | nil => simp
  | cons c rest =>
      rw [exponent?] at h
      by_cases hc : (c = 'e' || c = 'E') = true
      · rw [if_pos hc] at h
        obtain ⟨_, hn, -⟩ := Option.map_eq_some_iff.1 h
        obtain ⟨n, hn, -⟩ := Option.bind_eq_some_iff.1 hn
        rw [List.mem_cons, not_or]
        refine ⟨?_, Text.quote_notMem_of_splitSign (Text.quote_notMem_of_nat? hn)⟩
        rintro rfl
        cases hc
      · rw [if_neg hc] at h
        cases h

theorem Decimal.quote_notMem_of_ofText? {d : Decimal} (h : ofText? cs = some d) : '"' ∉ cs := by
  have hdigits : ∀ cs : List Char, '"' ∉ cs.takeWhile Char.isDigit := by
    intro cs hc
    cases List.mem_takeWhile_imp hc
  have hrest : ∀ {empty : Bool} {f : Int → Decimal} {rest : List Char},
      (if empty = true then none else (exponent? rest).map f) = some d → '"' ∉ rest := by
    intro empty f rest h
    split at h
    · cases h
    · obtain ⟨e, he, -⟩ := Option.map_eq_some_iff.1 h
      exact quote_notMem_of_exponent? he
  unfold ofText? at h
  simp only at h
  rw [← List.takeWhile_append_dropWhile (p := Char.isDigit) (l := cs), List.mem_append, not_or]
  refine ⟨hdigits cs, ?_⟩
  generalize cs.dropWhile Char.isDigit = afterWhole at h
  split at h
  · rename_i tail
    rw [← List.takeWhile_append_dropWhile (p := Char.isDigit) (l := tail)]
    simp only [List.mem_cons, List.mem_append, not_or]
    exact ⟨by decide, hdigits tail, hrest h⟩
  · exact hrest h

theorem Single.quote_notMem_of_word {m : Nat} (h : magnitudeOfWord? cs = some m) : '"' ∉ cs := by
  apply Text.quote_notMem_of_lower
  unfold magnitudeOfWord? at h
  simp only at h
  generalize cs.map Char.toLower = word at h
  split at h
  · rename_i heq
    rw [heq]
    decide
  · split at h
    · rename_i heq
      rw [Bool.or_eq_true, decide_eq_true_eq, decide_eq_true_eq] at heq
      rcases heq with rfl | rfl <;> decide
    · cases h

theorem Single.quote_notMem_of_ofText? {x : Single} (h : ofText? cs = some x) : '"' ∉ cs := by
  rw [ofText?] at h
  obtain ⟨m, hm, -⟩ := Option.map_eq_some_iff.1 h
  apply Text.quote_notMem_of_splitSign
  rcases (Option.orElse_eq_some _ _ _).1 hm with hdecimal | ⟨-, hword⟩
  · obtain ⟨d, hd, -⟩ := Option.map_eq_some_iff.1 hdecimal
    exact Decimal.quote_notMem_of_ofText? hd
  · exact quote_notMem_of_word hword

theorem HandleKind.quote_notMem_of_ofKeyword? {kind : HandleKind}
    (h : ofKeyword? (String.ofList cs) = some kind) : '"' ∉ cs := by
  have hall : ∀ k ∈ all, '"' ∉ k.keyword.toList := by decide +kernel
  have hkeyword : kind.keyword = String.ofList cs := by simpa using List.find?_some h
  have hmem := hall kind (List.mem_of_find?_eq_some h)
  rwa [hkeyword, String.toList_ofList] at hmem

theorem Mnemonic.quote_notMem_of_ofText? {m : Mnemonic} (h : ofText? (String.ofList cs) = some m) :
    '"' ∉ cs := by
  have hall : ∀ m ∈ all, '"' ∉ m.text.toList := by decide +kernel
  have htext : m.text = String.ofList cs := by simpa using List.find?_some h
  have hmem := hall m (mem_all m)
  rwa [htext, String.toList_ofList] at hmem

theorem ValueType.quote_notMem_of_ofText? {type : ValueType} (h : ofText? (String.ofList cs) = some type) :
    '"' ∉ cs := by
  apply Text.quote_notMem_of_lower
  have hlower : (String.ofList cs).map Char.toLower = String.ofList (cs.map Char.toLower) := by
    rw [← String.toList_inj, String.toList_map, String.toList_ofList, String.toList_ofList]
  unfold ofText? at h
  simp only [hlower] at h
  have hwords : ∀ w ∈ ["void", "int", "flex", "float", "bool", "string", "vector"], '"' ∉ w.toList := by
    decide +kernel
  have hword : ∀ {w : String}, w ∈ ["void", "int", "flex", "float", "bool", "string", "vector"] →
      String.ofList (cs.map Char.toLower) = w → '"' ∉ cs.map Char.toLower := by
    rintro _ hmem rfl
    have hnot := hwords _ hmem
    rwa [String.toList_ofList] at hnot
  by_cases hmem : String.ofList (cs.map Char.toLower) ∈
      ["void", "int", "flex", "float", "bool", "string", "vector"]
  · exact hword hmem rfl
  · simp only [List.mem_cons, List.not_mem_nil, or_false, not_or] at hmem
    obtain ⟨hvoid, hint, hflex, hfloat, hbool, hstring, hvector⟩ := hmem
    simp only [hvoid, hint, hflex, hfloat, hbool, hstring, hvector, decide_false, Bool.or_self, if_false,
      Bool.false_eq_true] at h
    obtain ⟨kind, hkind, -⟩ := Option.map_eq_some_iff.1 h
    exact HandleKind.quote_notMem_of_ofKeyword? hkind

/-! ## Literals -/

namespace Value

variable {v : Value}

theorem eq_of_parenthesized? {body : List Char} (h : parenthesized? cs = some body) :
    cs = '(' :: (body ++ [')']) := by
  unfold parenthesized? at h
  split at h
  · split at h
    · rename_i rest hlast
      cases h
      obtain ⟨before, rfl⟩ := List.getLast?_eq_some_iff.1 hlast
      rw [List.dropLast_concat]
    · cases h
  · cases h

theorem quote_notMem_of_vectorOfText? {w : Vector3} (h : vectorOfText? cs = some w) : '"' ∉ cs := by
  unfold vectorOfText? at h
  split at h
  · rename_i x y z hfields
    refine @Text.quote_notMem_of_splitFields cs (fun c => c == '/' || c == ',') (by decide) ?_
    intro field hfield
    obtain ⟨x, hx⟩ := Attempt.exists_of_mapM_some hfields hfield
    exact Text.quote_notMem_of_trim (Single.quote_notMem_of_ofText? hx)
  · cases h

theorem quote_notMem_of_handleOfText? {kind id : List Char} (h : handleOfText? kind id = some v) :
    '"' ∉ kind ∧ '"' ∉ id := by
  obtain ⟨k, hkind, h⟩ := Option.bind_eq_some_iff.1 h
  obtain ⟨n, hid, -⟩ := Option.map_eq_some_iff.1 h
  exact ⟨Text.quote_notMem_of_trim
      (Text.quote_notMem_of_lower (HandleKind.quote_notMem_of_ofKeyword? hkind)),
    Text.quote_notMem_of_trim (Text.quote_notMem_of_int32? hid)⟩

theorem quote_notMem_of_numberOfText? (h : numberOfText? cs = some v) : '"' ∉ cs := by
  unfold numberOfText? at h
  split at h
  · rename_i n hn
    exact Text.quote_notMem_of_int32? hn
  · simp only at h
    obtain ⟨x, hx, -⟩ := Option.map_eq_some_iff.1 h
    have hdigits := Single.quote_notMem_of_ofText? hx
    split at hdigits
    · rename_i hlast
      obtain ⟨before, rfl⟩ := List.getLast?_eq_some_iff.1 hlast
      rw [List.dropLast_concat] at hdigits
      simp [hdigits]
    · exact hdigits

/-- Only strings have quotes. -/
theorem quote_notMem_or_unquote? (h : bodyOfText? cs = some v) :
    '"' ∉ cs ∨ ∃ body s, cs = '"' :: body ∧ Text.unquote? body = some s := by
  unfold bodyOfText? at h
  split at h
  · rename_i body
    obtain ⟨s, hs, -⟩ := Option.map_eq_some_iff.1 h
    exact .inr ⟨body, s, rfl, hs⟩
  · left
    split at h
    · rename_i body hbody
      obtain ⟨w, hw, -⟩ := Option.map_eq_some_iff.1 h
      have hquote := quote_notMem_of_vectorOfText? hw
      rw [eq_of_parenthesized? hbody]
      simp [hquote]
    · split at h
      · rename_i kind id hcut
        obtain ⟨hkind, hid⟩ := quote_notMem_of_handleOfText? h
        rw [Text.eq_of_splitAt? hcut]
        simp [hkind, hid]
      · exact quote_notMem_of_numberOfText? h

/-- **Literals are closed.** -/
theorem closed_of_ofText? (h : ofText? cs = some v) (hkept : dropComment cs = cs) : Closed cs := by
  have hword : ∀ {w : String}, '"' ∉ w.toList → Text.trim cs = w.toList → Closed cs := by
    intro w hw heq
    rw [← heq] at hw
    exact Text.closed_of_quote_notMem (Text.quote_notMem_of_trim hw) hkept
  unfold ofText? at h
  simp only at h
  split at h
  · cases h
  · split at h
    · rename_i heq
      exact hword (by decide +kernel) heq
    · split at h
      · rename_i heq
        exact hword (by decide +kernel) heq
      · split at h
        · rename_i heq
          exact hword (by decide +kernel) heq
        · rcases quote_notMem_or_unquote? h with hquote | ⟨body, s, heq, hs⟩
          · exact Text.closed_of_quote_notMem (Text.quote_notMem_of_trim hquote) hkept
          · apply Text.closed_of_trim
            rw [heq]
            exact Text.closed_of_unquote? hs

end Value

namespace Assembly

variable {t t' : SymbolTable} {verbs : String → Option VerbId} {d d' : Draft} {line : Nat}

/-! ## Names -/

theorem quote_notMem_of_isName (h : isName cs = true) : '"' ∉ cs := by
  intro hc
  cases isNameChar_of_isName h '"' hc

/-- **Plain names:** no verb and no symbol has a quote in its name. -/
structure PlainNames (verbs : String → Option VerbId) (t : SymbolTable) : Prop where
  verb : ∀ name id, verbs name = some id → '"' ∉ name.toList
  symbol : ∀ name a, t.get? name = some a → '"' ∉ name.toList

/-- What a declaration reads. -/
theorem declareSymbol_reads (h : declareSymbol t line cs = .ok t') :
    ∃ typeWord afterType name afterName declared isLocal,
      Text.splitWord (Text.trim cs) = (typeWord, afterType) ∧
      Text.splitWord (Text.trim afterType) = (name, afterName) ∧
      splitLocal (Text.trim afterName) = (declared, isLocal) ∧ isName name = true ∧
      (∃ type, ValueType.ofText? (String.ofList typeWord) = some type) ∧
      ∃ given, declaredDefault line declared = .ok given := by
  unfold declareSymbol at h
  rcases htype : Text.splitWord (Text.trim cs) with ⟨typeWord, afterType⟩
  rcases hname : Text.splitWord (Text.trim afterType) with ⟨name, afterName⟩
  rcases hlocal : splitLocal (Text.trim afterName) with ⟨declared, isLocal⟩
  simp only [htype, hname, hlocal, bind, Except.bind, throw, throwThe, MonadExceptOf.throw] at h
  refine ⟨typeWord, afterType, name, afterName, declared, isLocal, rfl, hname, hlocal, ?_⟩
  split at h
  · cases h
  · rename_i hcond
    rw [Bool.not_eq_true, Bool.or_eq_false_iff] at hcond
    refine ⟨by simpa using hcond.2, ?_⟩
    split at h
    · cases h
    · rename_i type hread
      refine ⟨⟨type, hread⟩, ?_⟩
      obtain ⟨given, hgiven, -⟩ := Attempt.bind_eq_ok h
      exact ⟨given, hgiven⟩

/-- Declared symbols have names. -/
theorem isName_of_declareSymbols {lines : List Line} (h : declareSymbols lines = .ok t) :
    ∀ s ∈ t.symbols, isName s.name.toList = true := by
  refine @Attempt.foldlM_prefix _ _ _ _ (fun _ t => ∀ s ∈ t.symbols, isName s.name.toList = true) [] _ _ _ ?_
    (by simp [SymbolTable.empty]) h
  intro _ l _ t t' ht hstep
  split at hstep
  · rename_i keyword rest hdirective
    split at hstep
    · obtain ⟨s, hs, rfl⟩ := declareSymbol_cases hstep
      obtain ⟨_, _, name, _, _, _, htype, hname, -, hisName, -⟩ := declareSymbol_reads hstep
      have hdeclared : s.name = String.ofList name := by
        rw [(of_declared? hs).1, declaredName, htype, hname]
      intro s' hs'
      rcases List.mem_append.1 hs' with hold | hnew
      · exact ht s' hold
      · rw [List.mem_singleton.1 hnew, hdeclared, String.toList_ofList]
        exact hisName
    · cases hstep
      exact ht
  · cases hstep
    exact ht

theorem plainNames_of_declareSymbols {lines : List Line} (hverbs : ∀ name id, verbs name = some id →
    '"' ∉ name.toList) (h : declareSymbols lines = .ok t) : PlainNames verbs t := by
  refine ⟨hverbs, ?_⟩
  intro name a ha
  have hname : a.name = name := by simpa using List.find?_some ha
  exact hname ▸ quote_notMem_of_isName (isName_of_declareSymbols h a (List.mem_of_find?_eq_some ha))

/-! ## Instructions -/

theorem closed_of_memoryOperand {address : Nat} (hnames : PlainNames verbs t)
    (h : memoryOperand t line cs = .ok address) (hkept : dropComment cs = cs) : Closed cs := by
  refine Text.closed_of_quote_notMem ?_ hkept
  unfold memoryOperand at h
  split at h
  · cases h
  · split at h
    · rename_i n hn
      exact Text.quote_notMem_of_unsigned? hn
    · split at h
      · rename_i a ha
        simpa using hnames.symbol _ a ha
      · cases h

theorem closed_of_verbOperand {verb : VerbId} (hnames : PlainNames verbs t)
    (h : verbOperand verbs line cs = .ok verb) (hkept : dropComment cs = cs) : Closed cs := by
  refine Text.closed_of_quote_notMem ?_ hkept
  unfold verbOperand at h
  split at h
  · cases h
  · split at h
    · rename_i n hn
      simpa using Text.quote_notMem_of_int32? hn
    · cases h
  · split at h
    · rename_i v hv
      simpa using hnames.verb _ v hv
    · cases h

theorem closed_of_appendBranchTo {op : BranchOp} (h : appendBranchTo d line op cs = .ok d')
    (hkept : dropComment cs = cs) : Closed cs := by
  refine Text.closed_of_quote_notMem ?_ hkept
  unfold appendBranchTo at h
  split at h
  · rename_i n hn
    exact Text.quote_notMem_of_unsigned? hn
  · split at h
    · rename_i hname
      exact quote_notMem_of_isName hname
    · cases h

/-- **Instructions are closed:** the mnemonic, and the operand by its kind. -/
theorem closed_of_instruction (hnames : PlainNames verbs t) (h : instruction t verbs d line cs = .ok d')
    (hkept : dropComment cs = cs) : Closed cs := by
  have hcut := Text.append_splitWord cs
  rw [instruction_eq] at h
  cases hm : mnemonic? cs with
  | none =>
      rw [hm] at h
      cases h
  | some m =>
      rw [hm] at h
      have hword : Closed (Text.splitWord cs).1 := by
        refine Text.closed_of_quote_notMem ?_ (Text.dropComment_left (hcut.symm ▸ hkept))
        exact Text.quote_notMem_of_lower (Mnemonic.quote_notMem_of_ofText? hm)
      have hrest : dropComment (Text.splitWord cs).2 = (Text.splitWord cs).2 :=
        hword.dropComment_right (hcut.symm ▸ hkept)
      have hoperand : dropComment (operand cs) = operand cs := Text.dropComment_trim hrest
      suffices hclosed : Closed (operand cs) by
        rw [← hcut]
        exact hword.append (Text.closed_of_trim hclosed)
      cases m with
      | push =>
          simp only [Opcode.bare?] at h
          split at h
          · rename_i v hv
            exact Value.closed_of_ofText? hv hoperand
          · cases h
      | memory op =>
          simp only [Opcode.bare?] at h
          obtain ⟨a, ha, -⟩ := Attempt.map_eq_ok h
          exact closed_of_memoryOperand hnames ha hoperand
      | branch op =>
          simp only [Opcode.bare?] at h
          exact closed_of_appendBranchTo h hoperand
      | call keeps =>
          simp only [Opcode.bare?] at h
          obtain ⟨v, hv, -⟩ := Attempt.map_eq_ok h
          exact closed_of_verbOperand hnames hv hoperand
      | dup | ret | unary op | binary op =>
          simp only [Opcode.bare?] at h
          split at h
          · rename_i hempty
            rw [List.isEmpty_iff.1 hempty]
            exact .nil
          · cases h

/-! ## Declarations -/

/-- The word `local` is at the end, behind blanks. -/
theorem splitLocal_cases {given : List Char} {isLocal : Bool} (h : splitLocal cs = (given, isLocal)) :
    given = cs ∨ ∃ blanks, (∀ c ∈ blanks, Text.isBlank c = true) ∧
      cs = given ++ (blanks ++ "local".toList) := by
  unfold splitLocal at h
  simp only at h
  split at h
  · rename_i hword
    cases h
    exact .inr ⟨[], by simp, hword⟩
  · split at h
    · rename_i hcond
      cases h
      rw [Bool.and_eq_true, decide_eq_true_eq] at hcond
      generalize cs.take _ = head at hcond ⊢
      refine .inr ⟨(head.reverse.takeWhile Text.isBlank).reverse,
        fun c hc => List.mem_takeWhile_imp (List.mem_reverse.1 hc), ?_⟩
      rw [← List.append_assoc, Text.trimEnd, ← List.reverse_append, List.takeWhile_append_dropWhile,
        List.reverse_reverse, hcond.1]
    · cases h
      exact .inl rfl

theorem closed_of_declaredDefault {given : Option Value} (h : declaredDefault line cs = .ok given)
    (hkept : dropComment cs = cs) : Closed cs := by
  unfold declaredDefault at h
  split at h
  · exact .nil
  · rename_i literal
    simp only at h
    split at h
    · rename_i v hv
      have hequals : Closed ['='] := Text.closed_of_forall (by simp)
      have hliteral : dropComment literal = literal := hequals.dropComment_right hkept
      exact hequals.append
        (Text.closed_of_trim (Value.closed_of_ofText? hv (Text.dropComment_trim hliteral)))
    · cases h
  · cases h

/-- **Declarations are closed:** the type, the name, the default and the word `local`. -/
theorem closed_of_declareSymbol (h : declareSymbol t line cs = .ok t') (hkept : dropComment cs = cs) :
    Closed cs := by
  obtain ⟨typeWord, afterType, name, afterName, declared, isLocal, htype, hname, hlocal, hisName,
    ⟨type, hread⟩, given, hgiven⟩ := declareSymbol_reads h
  have hcutType : Text.trim cs = typeWord ++ afterType := by
    rw [← Text.append_splitWord (Text.trim cs), htype]
  have hcutName : Text.trim afterType = name ++ afterName := by
    rw [← Text.append_splitWord (Text.trim afterType), hname]
  have hkeptType : dropComment (typeWord ++ afterType) = typeWord ++ afterType := by
    rw [← hcutType]
    exact Text.dropComment_trim hkept
  have hclosedType : Closed typeWord := Text.closed_of_quote_notMem
    (ValueType.quote_notMem_of_ofText? hread) (Text.dropComment_left hkeptType)
  have hkeptName : dropComment (name ++ afterName) = name ++ afterName := by
    rw [← hcutName]
    exact Text.dropComment_trim (hclosedType.dropComment_right hkeptType)
  have hclosedName : Closed name := Text.closed_of_quote_notMem
    (quote_notMem_of_isName hisName) (Text.dropComment_left hkeptName)
  have hkeptAfter : dropComment (Text.trim afterName) = Text.trim afterName :=
    Text.dropComment_trim (hclosedName.dropComment_right hkeptName)
  have hclosedAfter : Closed (Text.trim afterName) := by
    rcases splitLocal_cases hlocal with rfl | ⟨blanks, hblanks, heq⟩
    · exact closed_of_declaredDefault hgiven hkeptAfter
    · rw [heq] at hkeptAfter ⊢
      refine (closed_of_declaredDefault hgiven (Text.dropComment_left hkeptAfter)).append ?_
      refine (Text.closed_of_isBlank hblanks).append ?_
      exact (piece_of_isName (by decide +kernel)).closed
  apply Text.closed_of_trim
  rw [hcutType]
  refine hclosedType.append (Text.closed_of_trim ?_)
  rw [hcutName]
  exact hclosedName.append (Text.closed_of_trim hclosedAfter)

/-! ## Lines -/

theorem eq_of_directive? {keyword rest : List Char} (h : directive? cs = some (keyword, rest)) :
    cs = ['.'] ++ (keyword ++ rest) := by
  unfold directive? at h
  split at h
  · rename_i text
    have hcut := Text.append_splitWord text
    rw [Option.some.inj h] at hcut
    rw [← hcut]
    rfl
  · cases h

/-- A line of code is closed. -/
theorem closed_of_codeLine {l : Line} (hnames : PlainNames verbs t) (h : codeLine t verbs d l = .ok d')
    (hkept : dropComment l.text = l.text) : Closed l.text := by
  unfold codeLine at h
  cases hlabel : splitLabel? l.text with
  | none =>
      rw [hlabel] at h
      exact closed_of_instruction hnames h hkept
  | some cut =>
      obtain ⟨name, rest⟩ := cut
      rw [hlabel] at h
      obtain ⟨hcut, hname⟩ := Option.filter_eq_some_iff.1 hlabel
      have htext : l.text = (name ++ [':']) ++ rest := by simpa using Text.eq_of_splitAt? hcut
      have hclosedName : Closed (name ++ [':']) := by
        rw [htext] at hkept
        refine Text.closed_of_quote_notMem ?_ (Text.dropComment_left hkept)
        simpa using quote_notMem_of_isName hname
      have hrest : dropComment rest = rest := hclosedName.dropComment_right (htext ▸ hkept)
      rw [htext]
      refine hclosedName.append (Text.closed_of_trim ?_)
      obtain ⟨d₁, -, h⟩ := Attempt.bind_eq_ok h
      simp only at h
      split at h
      · rename_i hempty
        rw [List.isEmpty_iff.1 hempty]
        exact .nil
      · exact closed_of_instruction hnames h (Text.dropComment_trim hrest)

/-- **Every line of a source that assembles is closed.** -/
theorem closed_of_assemble {name source : String} {script : Script}
    (hverbs : ∀ name id, verbs name = some id → '"' ∉ name.toList)
    (h : assemble name source verbs = .ok script) {l : Line} (hl : l ∈ linesOf source) :
    Closed l.text := by
  obtain ⟨p, hstages⟩ := assemble_eq_ok.1 h
  have hkept : dropComment l.text = l.text := (clean_of_mem_linesOf hl).comment
  obtain ⟨q, q', htake⟩ := Attempt.exists_of_mem_foldlM hstages.lines hl
  obtain ⟨t₁, t₂, hdeclare⟩ := Attempt.exists_of_mem_foldlM hstages.symbols hl
  unfold takeLine at htake
  cases hdirective : directive? l.text with
  | none =>
      rw [hdirective] at htake
      obtain ⟨d, hd, -⟩ := Attempt.map_eq_ok htake
      exact closed_of_codeLine (plainNames_of_declareSymbols hverbs hstages.symbols) hd hkept
  | some directive =>
      obtain ⟨keyword, rest⟩ := directive
      simp only [hdirective] at htake hdeclare
      have htext := eq_of_directive? hdirective
      rw [htext, ← List.append_assoc] at hkept ⊢
      have hclosed : ∀ word : String, '"' ∉ word.toList → keyword = word.toList →
          Closed (['.'] ++ keyword) := by
        rintro word hword rfl
        refine Text.closed_of_quote_notMem ?_ (Text.dropComment_left hkept)
        simpa using hword
      by_cases hsymbol : keyword = "symbol".toList
      · have hfirst := hclosed "symbol" (by decide +kernel) hsymbol
        rw [if_pos hsymbol] at hdeclare
        exact hfirst.append (closed_of_declareSymbol hdeclare (hfirst.dropComment_right hkept))
      · rw [if_neg hsymbol] at htake
        by_cases hmessage : keyword = "message".toList
        · have hfirst := hclosed "message" (by decide +kernel) hmessage
          rw [if_pos hmessage] at htake
          split at htake
          · rename_i hname
            refine hfirst.append (Text.closed_of_trim (Text.closed_of_quote_notMem
              (quote_notMem_of_isName hname) (Text.dropComment_trim (hfirst.dropComment_right hkept))))
          · cases htake
        · rw [if_neg hmessage] at htake
          cases htake

end Assembly
end CogMachine
