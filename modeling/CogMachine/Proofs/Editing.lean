import CogMachine.Proofs.Redrafting

/-!
# Edited sources

If a source assembles, so does the edited one, to a recoded script: the same opcodes but for the calls that
are left out and the ids of the verbs, the same symbols, and the same messages.

- `KeepsToNames` is asked of the source where the ids of verbs may change.
- `foldlM_edited`: the lines, one after the other.
- `declareSymbols_edited` and `foldlM_exportMessage_recoded`: declarations and messages.
- `assemble_edited` is what the two drafts come to.
-/

namespace CogMachine
namespace Assembly

variable {r : Recoding} {verbs verbs' : String → Option VerbId} {t : SymbolTable}
variable {items : List Appended} {d d' : Draft}

/-! ## Names of verbs -/

/-- **Sources that keep to names:** no call gives the id of its verb. -/
def KeepsToNames (lines : List Line) : Prop :=
  ∀ cs ∈ bodies (statements lines), ∀ keeps, mnemonic? cs = some (.call keeps) →
    (operand cs).head? ≠ some '#'

instance (lines : List Line) : Decidable (KeepsToNames lines) :=
  inferInstanceAs (Decidable (∀ cs ∈ bodies (statements lines), ∀ keeps,
    mnemonic? cs = some (.call keeps) → (operand cs).head? ≠ some '#'))

theorem verb?_of_head (verbs : String → Option VerbId) {cs : List Char} (h : cs.head? ≠ some '#') :
    verb? verbs cs = verbs (String.ofList cs) := by
  unfold verb?
  split
  · exact absurd rfl h
  · rfl

/-- **The opcode of a call** is that of a text which names the verb. -/
theorem call_of_denoted? {address? : String → Option Nat} {offset? : String → Option Nat}
    {cs : List Char} {keeps : Bool} {verb : VerbId}
    (h : denoted? address? verbs offset? cs = some (.call keeps verb)) :
    mnemonic? cs = some (.call keeps) ∧ verb? verbs (operand cs) = some verb := by
  unfold mnemonic?
  unfold denoted? at h
  rcases hm : Mnemonic.ofText? (String.ofList ((Text.splitWord cs).1.map Char.toLower)) with _ | m
  · simp only [hm] at h
    cases h
  · simp only [hm] at h
    rcases m with _ | _ | op | op | keeps | _ | op | op
    case call =>
      obtain ⟨verb', hverb, heq⟩ := Option.map_eq_some_iff.1 h
      cases heq
      exact ⟨rfl, hverb⟩
    case push | memory | branch =>
      obtain ⟨_, -, heq⟩ := Option.map_eq_some_iff.1 h
      cases heq
    all_goals
      simp only [Opcode.bare?] at h
      split at h <;> cases h

/-- A verb that is called has the name that its text gives. -/
theorem Means.name_of_call {lines : List Line} {os : List Opcode} (h : Means lines verbs os)
    (hnames : KeepsToNames lines) {keeps : Bool} {verb : VerbId} (ho : .call keeps verb ∈ os) :
    ∃ name, verbs name = some verb := by
  obtain ⟨cs, hcs, hdenoted⟩ := h.exists_body ho
  obtain ⟨hm, hverb⟩ := call_of_denoted? hdenoted
  rw [verb?_of_head verbs (hnames cs hcs keeps hm)] at hverb
  exact ⟨_, hverb⟩

/-- If every text stays, so does the source. -/
theorem edited_of_stays {lines : List Line}
    (h : ∀ line ∈ lines, ∀ s, statement? line = some s → Stays r verbs verbs' s.body) :
    Edited r verbs verbs' lines lines := by
  induction lines with
  | nil => exact .nil
  | cons line lines ih =>
      rw [List.forall_mem_cons] at h
      exact .kept rfl h.1 (ih h.2)

/-! ## Lines -/

theorem mem_bodies_of_statement? {line : Line} {lines : List Line} {s : Statement} {m : Mnemonic}
    (hline : line ∈ lines) (hs : statement? line = some s) (hm : mnemonic? s.body = some m) :
    s.body ∈ bodies (statements lines) := by
  have hne : s.body ≠ [] := by
    intro hempty
    rw [hempty] at hm
    cases hm
  have hmem : s ∈ statements lines := List.mem_filterMap.2 ⟨line, hline, hs⟩
  simpa [bodies, hne] using ⟨s, hmem, rfl⟩

/-- **All lines.** The induction is on the lines of the edited source. -/
theorem foldlM_edited {lines lines' done : List Line} (hedited : Edited r verbs verbs' lines lines')
    (htext : ∀ line ∈ lines, line.text ≠ [])
    (hlabel : ∀ line ∈ lines, ∀ s, statement? line = some s → ∀ op,
      mnemonic? s.body = some (.branch op) → isName (operand s.body) = true)
    {p p' p₁ : Progress} (h : p.Pairs r t verbs done p')
    (hp : lines.foldlM (takeLine t verbs) p = .ok p₁) :
    ∃ p₁', lines'.foldlM (takeLine t verbs') p' = .ok p₁' ∧ p₁.Pairs r t verbs (done ++ lines) p₁' := by
  induction hedited generalizing done p p' with
  | nil =>
      cases hp
      exact ⟨p', rfl, (List.append_nil done).symm ▸ h⟩
  | @kept line line' lines lines' hsame hstays _ ih =>
      rw [List.forall_mem_cons] at htext hlabel
      rw [List.foldlM_cons] at hp
      obtain ⟨q, hq, hp⟩ := Attempt.bind_eq_ok hp
      obtain ⟨q', hq', hnext⟩ := h.kept htext.1 hsame hstays hlabel.1 hq
      obtain ⟨p₁', hp', hall⟩ := ih htext.2 hlabel.2 hnext hp
      rw [List.append_assoc] at hall
      rw [List.foldlM_cons, hq']
      exact ⟨p₁', hp', hall⟩
  | @label line line' lines lines' name cs hs hcs hs' _ ih =>
      rw [List.forall_mem_cons] at htext hlabel
      rw [List.foldlM_cons] at hp
      obtain ⟨q, hq, hp⟩ := Attempt.bind_eq_ok hp
      obtain ⟨q', hq', hnext⟩ := h.label hs hcs hs' hq
      obtain ⟨p₁', hp', hall⟩ := ih htext.2 hlabel.2 hnext hp
      rw [List.append_assoc] at hall
      rw [List.foldlM_cons, hq']
      exact ⟨p₁', hp', hall⟩
  | @dropped line lines lines' cs hs hcs _ ih =>
      rw [List.forall_mem_cons] at htext hlabel
      rw [List.foldlM_cons] at hp
      obtain ⟨q, hq, hp⟩ := Attempt.bind_eq_ok hp
      obtain ⟨p₁', hp', hall⟩ := ih htext.2 hlabel.2 (h.dropped hs hcs hq) hp
      rw [List.append_assoc] at hall
      exact ⟨p₁', hp', hall⟩

/-! ## Declarations -/

/-- A declaration does not look at its line. -/
theorem declareSymbol_line {cs : List Char} {line : Nat} {t₁ : SymbolTable}
    (h : declareSymbol t line cs = .ok t₁) (line' : Nat) : declareSymbol t line' cs = .ok t₁ := by
  unfold declareSymbol at h ⊢
  generalize Text.splitWord (Text.trim cs) = words at h ⊢
  obtain ⟨typeWord, afterType⟩ := words
  simp only at h ⊢
  generalize Text.splitWord (Text.trim afterType) = words at h ⊢
  obtain ⟨name, afterName⟩ := words
  simp only [bind, Except.bind, throw, throwThe, MonadExceptOf.throw] at h ⊢
  split at h
  · cases h
  · rename_i hname
    rw [if_neg hname]
    cases htype : ValueType.ofText? (String.ofList typeWord) with
    | none =>
        simp only [htype] at h
        cases h
    | some type =>
        simp only [htype] at h ⊢
        generalize splitLocal (Text.trim afterName) = parts at h ⊢
        obtain ⟨rest, isLocal⟩ := parts
        have hgiven : ∀ given, declaredDefault line rest = .ok given →
            declaredDefault line' rest = .ok given := by
          intro given hgiven
          unfold declaredDefault at hgiven ⊢
          split at hgiven
          · exact hgiven
          · rename_i literal
            cases hv : Value.ofText? (Text.trim literal) with
            | none =>
                simp only [hv] at hgiven
                cases hgiven
            | some v =>
                simp only [hv] at hgiven ⊢
                exact hgiven
          · cases hgiven
        obtain ⟨given, hdeclared, h⟩ := Attempt.bind_eq_ok h
        simp only [hgiven given hdeclared]
        exact h

/-- **Declarations stay.** -/
theorem declareSymbols_edited {lines lines' : List Line} (hedited : Edited r verbs verbs' lines lines')
    {symbols : SymbolTable} (h : declareSymbols lines = .ok symbols) :
    declareSymbols lines' = .ok symbols := by
  unfold declareSymbols at h ⊢
  generalize SymbolTable.empty = start at h ⊢
  induction hedited generalizing start with
  | nil => exact h
  | @kept line line' lines lines' htext _ _ ih =>
      rw [List.foldlM_cons] at h ⊢
      obtain ⟨t₁, hline, h⟩ := Attempt.bind_eq_ok h
      rw [htext]
      cases hdirective : directive? line.text with
      | none =>
          simp only [hdirective] at hline ⊢
          cases hline
          exact ih start h
      | some directive =>
          simp only [hdirective] at hline ⊢
          by_cases hsymbol : directive.1 = "symbol".toList
          · rw [if_pos hsymbol] at hline ⊢
            rw [declareSymbol_line hline line'.number]
            exact ih t₁ h
          · rw [if_neg hsymbol] at hline ⊢
            cases hline
            exact ih start h
  | label hs _ hs' _ ih =>
      rw [List.foldlM_cons] at h ⊢
      obtain ⟨t₁, hline, h⟩ := Attempt.bind_eq_ok h
      rw [directive?_of_statement? hs] at hline
      cases hline
      rw [directive?_of_statement? hs']
      exact ih start h
  | dropped hs _ _ ih =>
      rw [List.foldlM_cons] at h
      obtain ⟨t₁, hline, h⟩ := Attempt.bind_eq_ok h
      rw [directive?_of_statement? hs] at hline
      cases hline
      exact ih start h

/-! ## Messages -/

section Messages

theorem insertSorted_movedEntries (target : Nat → Nat) (name : String) (n : Nat)
    (entries : List (String × Nat)) :
    ExportTable.insertSorted name (target n) (movedEntries target entries) =
      movedEntries target (ExportTable.insertSorted name n entries) := by
  induction entries with
  | nil => rfl
  | cons entry entries ih =>
      obtain ⟨first, k⟩ := entry
      unfold movedEntries at ih ⊢
      rw [List.map_cons, ExportTable.insertSorted, ExportTable.insertSorted, ih]
      by_cases hlt : name < first
      · rw [if_pos hlt, if_pos hlt]
        rfl
      · rw [if_neg hlt, if_neg hlt]
        rfl

/-- **One message.** Its handler has gone where the label is. -/
theorem exportMessage_recoded {target : Nat → Nat} (hposition : ∀ name,
      d'.position? name = (d.position? name).map target) {message message' : Nat × String}
    (hname : message'.2 = message.2) {x x₁ x' : ExportTable}
    (hx : x'.entries = movedEntries target x.entries) (h : exportMessage d x message = .ok x₁) :
    ∃ x₁', exportMessage d' x' message' = .ok x₁' ∧ x₁'.entries = movedEntries target x₁.entries := by
  obtain ⟨line, name⟩ := message
  obtain ⟨line', name'⟩ := message'
  obtain rfl : name' = name := hname
  unfold exportMessage at h ⊢
  simp only [hposition] at h ⊢
  cases hn : d.position? name' with
  | none =>
      simp only [hn] at h
      cases h
  | some n =>
      simp only [hn, Option.map_some] at h ⊢
      have hknown : (x'.offset? name').isSome = (x.offset? name').isSome := by
        rw [ExportTable.offset?, ExportTable.offset?, hx, lookup_movedEntries, Option.isSome_map]
      unfold ExportTable.insert at h ⊢
      rw [hknown, hx, insertSorted_movedEntries]
      cases hsome : (x.offset? name').isSome with
      | true =>
          simp only [hsome, if_true] at h
          cases h
      | false =>
          simp only [hsome, Bool.false_eq_true, if_false] at h ⊢
          cases h
          exact ⟨_, rfl, rfl⟩

theorem foldlM_exportMessage_recoded {target : Nat → Nat} (hposition : ∀ name,
      d'.position? name = (d.position? name).map target) {messages messages' : List (Nat × String)}
    (hnames : messages'.map Prod.snd = messages.map Prod.snd) {x x₁ x' : ExportTable}
    (hx : x'.entries = movedEntries target x.entries)
    (h : messages.foldlM (exportMessage d) x = .ok x₁) :
    ∃ x₁', messages'.foldlM (exportMessage d') x' = .ok x₁' ∧
      x₁'.entries = movedEntries target x₁.entries := by
  induction messages generalizing messages' x x' with
  | nil =>
      rw [List.map_nil, List.map_eq_nil_iff] at hnames
      subst hnames
      cases h
      exact ⟨x', rfl, hx⟩
  | cons message messages ih =>
      rcases messages' with _ | ⟨message', messages'⟩
      · cases hnames
      · rw [List.map_cons, List.map_cons, List.cons.injEq] at hnames
        rw [List.foldlM_cons] at h
        obtain ⟨y, hy, h⟩ := Attempt.bind_eq_ok h
        obtain ⟨y', hy', hmoved⟩ := exportMessage_recoded hposition hnames.1 hx hy
        rw [List.foldlM_cons, hy']
        exact ih hnames.2 hmoved h

end Messages

/-! ## The whole source -/

section Finishing

variable {os : List Opcode}

/-- The opcodes of the items go where their placeholders go. -/
theorem relocate_resolved {b : Builder} (h : items.mapM b.resolve = .ok os) (r : Recoding) :
    r.relocate os = r.relocate (items.map Appended.placeholder) := by
  have hresolved := Attempt.forall₂_of_mapM h
  apply Recoding.relocate_congr
  clear h
  induction hresolved with
  | nil => exact .nil
  | @cons item o items os ho _ ih =>
      refine .cons ⟨?_, ?_⟩ ih
      · exact Builder.encodedLength_of_resolve ho
      · cases item with
        | opcode o' =>
            cases ho
            rfl
        | branch op l =>
            obtain ⟨n, -, -, rfl⟩ := Builder.resolve_branch_eq_ok.1 ho
            rfl

/-- **The items of the edited source** resolve to the recoded opcodes. -/
theorem mapM_resolve_recoded {b b' : Builder} {target : Nat → Nat} (htarget : ∀ n, target n ≤ n)
    (hposition : ∀ l, b'.position? l = (b.position? l).map target)
    (hlabelled : ∀ o, .opcode o ∈ items → o.target? = none) (h : items.mapM b.resolve = .ok os) :
    (items.filterMap r.appended?).mapM b'.resolve = .ok (os.filterMap (r.opcode? target)) := by
  have hresolved := Attempt.forall₂_of_mapM h
  clear h
  induction hresolved with
  | nil => rfl
  | @cons item o items os ho _ ih =>
      have hrest := ih fun o ho => hlabelled o (List.mem_cons_of_mem item ho)
      cases item with
      | opcode o' =>
          obtain rfl : o' = o := by
            cases ho
            rfl
          have hsame : r.opcode? target o' = r.opcode? id o' := by
            have hnone := hlabelled o' List.mem_cons_self
            cases o' with
            | branch op n => cases hnone
            | push | dup | memory | call | ret | unary | binary => rfl
          cases hkept : r.opcode? id o' with
          | none =>
              have hitem : r.appended? (.opcode o') = none := by
                rw [Recoding.appended?, hkept]
                rfl
              rw [List.filterMap_cons_none hitem, List.filterMap_cons_none (hsame.trans hkept)]
              exact hrest
          | some o'' =>
              have hitem : r.appended? (.opcode o') = some (.opcode o'') := by
                rw [Recoding.appended?, hkept]
                rfl
              rw [List.filterMap_cons_some hitem, List.filterMap_cons_some (hsame.trans hkept),
                List.mapM_cons, hrest]
              rfl
      | branch op l =>
          obtain ⟨n, hn, hlt, rfl⟩ := Builder.resolve_branch_eq_ok.1 ho
          have hbranch : b'.resolve (.branch op l) = .ok (.branch op (target n)) := by
            refine Builder.resolve_branch_eq_ok.2 ⟨target n, ?_, ?_, rfl⟩
            · rw [hposition, hn]
              rfl
            · exact Nat.lt_of_le_of_lt (htarget n) hlt
          rw [List.filterMap_cons_some (show r.appended? (.branch op l) = some (.branch op l) from rfl),
            List.filterMap_cons_some
              (show r.opcode? target (.branch op n) = some (.branch op (target n)) from rfl),
            List.mapM_cons, hbranch, hrest]
          rfl

/-- No item of the edited source overflows. -/
theorem overflow?_recoded (h : items.findSome? Appended.overflow? = none) :
    (items.filterMap r.appended?).findSome? Appended.overflow? = none := by
  rw [List.findSome?_eq_none_iff] at h ⊢
  intro item' hitem'
  obtain ⟨item, hitem, heq⟩ := List.mem_filterMap.1 hitem'
  have hnone := h item hitem
  cases item with
  | branch op l =>
      cases heq
      exact hnone
  | opcode o =>
      obtain ⟨o', ho', rfl⟩ := Option.map_eq_some_iff.1 heq
      cases o with
      | call keeps verb =>
          obtain ⟨verb', -, rfl⟩ := Option.map_eq_some_iff.1 ho'
          rfl
      | push | dup | memory | branch | ret | unary | binary =>
          cases ho'
          exact hnone

end Finishing

/-- Two drafts that have been recoded put every name where the relocation says. -/
theorem Draft.Recoded.position?_eq (h : d.Recoded r items d') (name : String) :
    d'.position? name =
      (d.position? name).map (r.relocate (items.map Appended.placeholder)) := by
  unfold Draft.position?
  rw [h.labels]
  cases d.labels.lookup name with
  | none => rfl
  | some l => exact h.position l

theorem Draft.Recoded.undefinedReference?_eq (h : d.Recoded r items d') :
    undefinedReference? d' = undefinedReference? d := by
  unfold undefinedReference?
  rw [h.referenced]
  congr 1
  funext name
  rw [h.position?_eq, Option.isNone_map]

/-- **The builder of the edited source finishes** with the recoded opcodes. -/
theorem Draft.Recoded.finish {os : List Opcode} {program : Program} (h : d.Recoded r items d')
    (hos : items.mapM d.builder.resolve = .ok os) (hfinish : d.builder.finish = .ok program) :
    d'.builder.finish = .ok (.ofBytes ((r.opcodes os).flatMap Opcode.encode)) := by
  have hoverflow : items.findSome? Appended.overflow? = none := by
    rw [Builder.finish_of_records h.records] at hfinish
    cases hsome : items.findSome? Appended.overflow? with
    | none => rfl
    | some a =>
        rw [hsome] at hfinish
        cases hfinish
  have hresolved := mapM_resolve_recoded (r := r) (r.relocate_le _) h.position h.labelled hos
  rw [← relocate_resolved hos r] at hresolved
  rw [Builder.finish_of_records h.recoded, overflow?_recoded hoverflow, hresolved]
  rfl

/-- The last opcode stays if the last text does. -/
theorem keeps_getLast? {lines : List Line} {os : List Opcode} (hmeans : Means lines verbs os)
    (hlast : ∀ cs, (bodies (statements lines)).getLast? = some cs → ¬ LeftOut r verbs cs) {o : Opcode}
    (ho : os.getLast? = some o) : r.keeps o = true := by
  by_contra hnot
  have hnone := Bool.eq_false_of_not_eq_true hnot
  have hmapped := congrArg List.getLast? hmeans
  rw [List.getLast?_map, List.getLast?_map, ho] at hmapped
  obtain ⟨cs, hcs, hdenoted⟩ := Option.map_eq_some_iff.1 hmapped
  cases o with
  | call keeps verb =>
      obtain ⟨hm, hverb⟩ := call_of_denoted? hdenoted
      have hcall : r.call? keeps verb = none := by simpa [Recoding.keeps] using hnone
      exact hlast cs hcs ⟨keeps, verb, hm, hverb, hcall⟩
  | push | dup | memory | branch | ret | unary | binary => cases hnone

/-- **Edited sources assemble.** If a source assembles, so does the edited one, and the script is recoded. -/
theorem assemble_edited {name source source' : String} {script : Script}
    (h : assemble name source verbs = .ok script) (hlabels : KeepsToLabels (linesOf source))
    (hstrings : StringsFit (linesOf source))
    (hedited : Edited r verbs verbs' (linesOf source) (linesOf source'))
    (hlast : ∀ cs, (bodies (statements (linesOf source))).getLast? = some cs → ¬ LeftOut r verbs cs) :
    ∃ os script', Means (linesOf source) verbs os ∧ assemble name source' verbs' = .ok script' ∧
      script.Recoded r os script' := by
  obtain ⟨p, hstages⟩ := assemble_eq_ok.1 h
  have hstart : Progress.Pairs r script.symbols verbs [] ⟨.empty, []⟩ ⟨.empty, []⟩ :=
    ⟨⟨[], Draft.holds_empty, Draft.Recoded.empty r⟩, rfl⟩
  obtain ⟨p', hlines', hpairs⟩ := foldlM_edited hedited (fun line hline => text_ne_nil hline)
    (fun line hline s hs op hop => hlabels s.body (mem_bodies_of_statement? hline hs hop) op hop)
    hstart hstages.lines
  obtain ⟨items, hdraft, hrecoded⟩ := hpairs.draft
  obtain ⟨os, hos, hprogram, haddress⟩ := hdraft.records.finish_cases hstages.program
  have haddresses : (fun n => (script.symbols.get? n).map Symbol.address) =
      symbolAddress? (declarations (linesOf source)) :=
    funext (declares_declareSymbols hstages.symbols).address
  rw [haddresses, List.nil_append] at hdraft
  have hmeans : Means (linesOf source) verbs os := hdraft.denoted hos
  have hrelocate := relocate_resolved hos r
  obtain ⟨exports', hexports', hentries⟩ := foldlM_exportMessage_recoded hrecoded.position?_eq
    (show p'.messages.reverse.map Prod.snd = p.messages.reverse.map Prod.snd by
      rw [List.map_reverse, List.map_reverse, hpairs.messages])
    (show ExportTable.empty.entries = movedEntries _ ExportTable.empty.entries from rfl) hstages.exports
  refine ⟨os, ⟨name, _, script.symbols, exports'⟩, hmeans, assemble_eq_ok.2 ⟨p', ?_⟩, hprogram, rfl,
    hmeans.wellAimed hlabels hstrings haddress, fun o ho => keeps_getLast? hmeans hlast ho, hstages.name.symm, rfl,
    ?_, ?_⟩
  · exact
      { symbols := declareSymbols_edited hedited hstages.symbols
        lines := hlines'
        defined := hrecoded.undefinedReference?_eq.trans hstages.defined
        exports := hexports'
        program := hrecoded.finish hos hstages.program
        name := rfl }
  · rw [hrelocate]
    exact hentries
  · intro message n hn
    have hposition := hstages.position?_of_offset? hn
    rw [hdraft.position?_eq hos] at hposition
    exact boundary_of_labelOffset? hposition

end Assembly
end CogMachine
