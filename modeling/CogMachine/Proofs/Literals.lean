import CogMachine.Bytecode.Word
import CogMachine.Proofs.Decimals
import CogMachine.Proofs.Texts
import CogMachine.Value.Reading
import Mathlib

/-!
# Literals read back

A literal of a listing is read as the value that was listed, if the listing writes it in a form that
scripts have: `Value.Listable` leaves out NaNs, infinite floats, and strings with characters that are
listed by their code point or by an escape that scripts lack.

- `Text.unquote?_written`: strings, character by character; `Text.closed_of_unquote?`: where they end.
- `Value.bodyOfText?_cases`: which reader a literal goes to.
- `Value.ofText?_literalChars`: the value is read back.
- `Value.clean_literalChars`: nothing in the text looks like a comment or the end of a line.
-/

namespace CogMachine

open Assembly (Clean)

namespace Text

/-! ## Words without blanks -/

/-- The characters of all operands but strings. -/
def isWordChar (c : Char) : Bool := c.isAlphanum || ['-', '.', '/', '(', ')', ':', '#'].contains c

theorem isWordChar_cases {c : Char} (h : isWordChar c = true) :
    isBlank c = false ∧ c ≠ ';' ∧ c ≠ '"' ∧ c ≠ '\n' := by
  rcases Bool.or_eq_true_iff.1 h with h | h
  · refine ⟨isBlank_of_isAlphanum h, ?_, ?_, ?_⟩
    all_goals
      rintro rfl
      cases h
  · have hmem := List.contains_iff_mem.1 h
    simp only [List.mem_cons, List.not_mem_nil, or_false] at hmem
    rcases hmem with rfl | rfl | rfl | rfl | rfl | rfl | rfl <;> decide

/-- **A word is clean.** -/
theorem clean_of_isWordChar {cs : List Char} (hne : cs ≠ []) (h : ∀ c ∈ cs, isWordChar c = true) :
    Clean cs where
  nonempty := hne
  newline := fun hc => (isWordChar_cases (h _ hc)).2.2.2 rfl
  trimmed := trimmed_of_forall fun c hc => (isWordChar_cases (h c hc)).1
  comment := dropComment_eq_self fun c hc =>
    ⟨(isWordChar_cases (h c hc)).2.1, (isWordChar_cases (h c hc)).2.2.1⟩

theorem isWordChar_of_isDigit {c : Char} (h : c.isDigit = true) : isWordChar c = true := by
  simp [isWordChar, Char.isAlphanum, h]

theorem isWordChar_digitsOfNat {n : Nat} {c : Char} (h : c ∈ digitsOfNat n) : isWordChar c = true :=
  isWordChar_of_isDigit (isDigit_of_mem_digitsOfNat h)

theorem isWordChar_digitsOfInt {n : Int} {c : Char} (h : c ∈ digitsOfInt n) : isWordChar c = true := by
  unfold digitsOfInt at h
  split at h
  · rcases List.mem_cons.1 h with rfl | h
    · rfl
    · exact isWordChar_digitsOfNat h
  · exact isWordChar_digitsOfNat h

/-! ## Strings -/

section Quoted

variable {cs : List Char}

theorem unquote?_escape {e c : Char} (h : escape? e = some c) (rest : List Char) :
    unquote? ('\\' :: e :: rest) = (unquote? rest).map (c :: ·) := by
  rw [unquote?, h, Option.bind_some]

theorem unquote?_plain {c : Char} (hquote : c ≠ '"') (hslash : c ≠ '\\') (rest : List Char) :
    unquote? (c :: rest) = (unquote? rest).map (c :: ·) := by
  rw [unquote?, if_neg hquote, if_neg hslash]
  rintro d ds rfl
  exact absurd rfl hslash

/-- A string ends for the reader of lines where it ends for the reader of strings. -/
theorem inside_of_unquote? {s : List Char} (h : unquote? cs = some s) (after : List Char) :
    dropComment.inside (cs ++ after) = cs ++ dropComment after := by
  induction cs using unquote?.induct generalizing s with
  | case1 => cases h
  | case2 e cs ih =>
      rw [unquote?] at h
      obtain ⟨c, -, h⟩ := Option.bind_eq_some_iff.1 h
      obtain ⟨s', hs', -⟩ := Option.map_eq_some_iff.1 h
      rw [List.cons_append, List.cons_append, dropComment.inside, if_pos rfl, dropComment.escaped, ih hs']
      rfl
  | case3 cs hblanks =>
      -- Behind the closing quote there are blanks only.
      have hkept : dropComment (cs ++ after) = cs ++ dropComment after :=
        dropComment_append (fun c hc => ne_of_isBlank (List.all_eq_true.1 hblanks c hc)) after
      rw [List.cons_append, dropComment.inside, if_neg (by decide), if_pos rfl]
      exact congrArg ('"' :: ·) hkept
  | case4 cs hblanks =>
      rw [unquote?, if_pos rfl, if_neg hblanks] at h
      · cases h
      · intro _ _ hquote
        cases hquote
  | case5 cs hquote hslash =>
      cases cs with
      | nil =>
          cases h
      | cons c cs => exact absurd rfl (hquote c cs rfl)
  | case6 c cs _ hquote hslash ih =>
      rw [unquote?_plain hquote hslash] at h
      obtain ⟨s', hs', -⟩ := Option.map_eq_some_iff.1 h
      rw [List.cons_append, List.cons_append, dropComment.inside, if_neg hslash, if_neg hquote, ih hs']

/-- **A string is closed.** -/
theorem closed_of_unquote? {s : List Char} (h : unquote? cs = some s) : Closed ('"' :: cs) := by
  intro after
  rw [List.cons_append, dropComment, dropComment.outside, if_neg (by decide), if_pos rfl,
    inside_of_unquote? h]
  rfl

/-- **One character** of a string that a script writes: itself, or one of the four escapes that scripts
have. -/
def escapeChar (c : Char) : List Char :=
  if c = '\\' then ['\\', '\\']
  else if c = '"' then ['\\', '"']
  else if c = '\n' then ['\\', 'n']
  else if c = '\t' then ['\\', 't']
  else [c]

/-- **A string as a script writes it.** -/
def written (cs : List Char) : List Char := '"' :: (cs.flatMap escapeChar ++ ['"'])

theorem escapeChar_cases (c : Char) :
    (escapeChar c = [c] ∧ c ≠ '"' ∧ c ≠ '\\' ∧ c ≠ '\n') ∨
      ∃ e, escapeChar c = ['\\', e] ∧ escape? e = some c ∧ e ≠ '\n' := by
  by_cases hmem : c ∈ ['"', '\\', '\n', '\t']
  · simp only [List.mem_cons, List.not_mem_nil, or_false] at hmem
    rcases hmem with rfl | rfl | rfl | rfl
    · exact .inr ⟨'"', rfl, rfl, by decide⟩
    · exact .inr ⟨'\\', rfl, rfl, by decide⟩
    · exact .inr ⟨'n', rfl, rfl, by decide⟩
    · exact .inr ⟨'t', rfl, rfl, by decide⟩
  · simp only [List.mem_cons, List.not_mem_nil, or_false, not_or] at hmem
    obtain ⟨hquote, hslash, hnewline, htab⟩ := hmem
    refine .inl ⟨?_, hquote, hslash, hnewline⟩
    rw [escapeChar, if_neg hslash, if_neg hquote, if_neg hnewline, if_neg htab]

/-- **Strings read back.** -/
theorem unquote?_written (cs : List Char) : unquote? (cs.flatMap escapeChar ++ ['"']) = some cs := by
  induction cs with
  | nil => rfl
  | cons c cs ih =>
      rw [List.flatMap_cons, List.append_assoc]
      rcases escapeChar_cases c with ⟨hself, hquote, hslash, -⟩ | ⟨e, hescape, he, -⟩
      · rw [hself, List.singleton_append, unquote?_plain hquote hslash, ih]
        rfl
      · rw [hescape, List.cons_append, List.singleton_append, unquote?_escape he, ih]
        rfl

/-- **A string is clean,** whatever is in it. -/
theorem clean_written (cs : List Char) : Clean (written cs) where
  nonempty := by simp [written]
  newline := by
    intro hmem
    unfold written at hmem
    simp only [List.mem_cons, List.mem_append, List.mem_flatMap, List.not_mem_nil, or_false] at hmem
    rcases hmem with hmem | ⟨c, -, hmem⟩ | hmem
    · cases hmem
    · rcases escapeChar_cases c with ⟨hself, -, -, hne⟩ | ⟨e, hescape, -, hne⟩
      · rw [hself, List.mem_singleton] at hmem
        exact hne hmem.symm
      · rw [hescape] at hmem
        simp only [List.mem_cons, List.not_mem_nil, or_false] at hmem
        rcases hmem with hmem | hmem
        · cases hmem
        · exact hne hmem.symm
    · cases hmem
  trimmed := by
    constructor
    · rintro c ⟨⟩
      rfl
    · intro c hc
      rw [written, ← List.cons_append, List.getLast?_concat] at hc
      cases hc
      rfl
  comment := (closed_of_unquote? (unquote?_written cs)).dropComment_eq

/-- **Listable characters:** those that a listing shows as themselves or by an escape that scripts
have. -/
def isListable (c : Char) : Bool := quoteChar c == [c] || ['"', '\\', '\n', '\t'].contains c

/-- A listing shows them as scripts write them. -/
theorem quoteChar_of_isListable {c : Char} (h : isListable c = true) : quoteChar c = escapeChar c := by
  by_cases hmem : c ∈ ['"', '\\', '\n', '\t']
  · simp only [List.mem_cons, List.not_mem_nil, or_false] at hmem
    rcases hmem with rfl | rfl | rfl | rfl <;> rfl
  · rw [isListable, Bool.or_eq_true_iff, beq_iff_eq, List.contains_iff_mem] at h
    simp only [List.mem_cons, List.not_mem_nil, or_false, not_or] at hmem
    obtain ⟨hquote, hslash, hnewline, htab⟩ := hmem
    rw [h.resolve_right (by simp [hquote, hslash, hnewline, htab]), escapeChar, if_neg hslash,
      if_neg hquote, if_neg hnewline, if_neg htab]

theorem quoteChar_cases {c : Char} (h : isListable c = true) :
    (quoteChar c = [c] ∧ c ≠ '"' ∧ c ≠ '\\' ∧ c ≠ '\n') ∨
      ∃ e, quoteChar c = ['\\', e] ∧ escape? e = some c ∧ e ≠ '\n' := by
  rw [quoteChar_of_isListable h]
  exact escapeChar_cases c

/-- **Quoted for a listing** as a script would write it, if all characters are listable. -/
theorem quote_eq_written (h : ∀ c ∈ cs, isListable c = true) : quote cs = written cs := by
  rw [quote, written, List.flatMap_congr fun c hc => quoteChar_of_isListable (h c hc)]

theorem clean_quote (h : ∀ c ∈ cs, isListable c = true) : Clean (quote cs) := by
  rw [quote_eq_written h]
  exact clean_written cs

end Quoted
end Text

/-! ## Singles -/

/-- The text of a single holds letters, digits, signs and points only. -/
theorem Layout.isWordChar_single {l : Layout} {x : Single} {c : Char} (hc : c ∈ l.single x) :
    Text.isWordChar c = true ∧ c ≠ '/' ∧ c ≠ '(' ∧ c ≠ ')' ∧ c ≠ ':' := by
  cases hfinite : x.isFinite with
  | true =>
      have hnumeral := Single.isNumeralChar_single hfinite hc
      unfold isNumeralChar at hnumeral
      simp only [Bool.or_eq_true, beq_iff_eq] at hnumeral
      rcases hnumeral with ((hdigit | rfl) | rfl) | rfl
      · refine ⟨Text.isWordChar_of_isDigit hdigit, ?_, ?_, ?_, ?_⟩
        all_goals
          rintro rfl
          cases hdigit
      all_goals decide
  | false =>
      have hletters : c ∈ ['-', 'i', 'n', 'f', 'N', 'a'] := by
        unfold single at hc
        split at hc
        · simp only [List.mem_cons, List.not_mem_nil, or_false] at hc ⊢
          tauto
        · rename_i hx
          rw [magnitude, if_pos (Single.magnitude_eq_of_not_isFinite (by simpa using hx) hfinite)] at hc
          split at hc
          · simp only [List.mem_cons, List.not_mem_nil, or_false] at hc ⊢
            tauto
          · simp only [List.mem_cons, List.not_mem_nil, or_false] at hc ⊢
            tauto
      simp only [List.mem_cons, List.not_mem_nil, or_false] at hletters
      rcases hletters with rfl | rfl | rfl | rfl | rfl | rfl <;> decide

theorem Layout.exists_single {l : Layout} {x : Single} (hx : x.isFinite = true) :
    ∃ c rest, l.single x = c :: rest ∧ (c.isDigit = true ∨ c = '-') := by
  have hlt := Single.isFinite_iff.1 hx
  unfold single
  rw [if_neg (by simp [Single.isNaN_of_isFinite hx])]
  split
  · exact ⟨'-', _, rfl, .inr rfl⟩
  · unfold magnitude
    rw [if_neg (Nat.ne_of_lt hlt)]
    split
    · split
      · exact ⟨'0', _, rfl, .inl rfl⟩
      · exact ⟨'0', _, rfl, .inl rfl⟩
    · obtain ⟨c, cs, heq, hc⟩ := l.exists_decimal (Single.shortest x.magnitude)
      exact ⟨c, cs, heq, .inl hc⟩

theorem isWordChar_of_isNumeralChar {c : Char} (h : Layout.isNumeralChar c = true) :
    Text.isWordChar c = true := by
  unfold Layout.isNumeralChar at h
  simp only [Bool.or_eq_true, beq_iff_eq] at h
  rcases h with ((hdigit | rfl) | rfl) | rfl
  · exact Text.isWordChar_of_isDigit hdigit
  all_goals decide

namespace Value

open Text (isWordChar isListable quote)

/-- **Listable values:** those whose listed form is one that scripts have for them. -/
def Listable : Value → Prop
  | float x => x.isFinite = true
  | vector v => v.x.isNaN = false ∧ v.y.isNaN = false ∧ v.z.isNaN = false
  | string s => s.utf8ByteSize < wordLimit ∧ ∀ c ∈ s.toList, isListable c = true
  | void | int _ | bool _ | handle _ _ => True

instance : (v : Value) → Decidable v.Listable
  | float x => inferInstanceAs (Decidable (x.isFinite = true))
  | vector v =>
    inferInstanceAs (Decidable (v.x.isNaN = false ∧ v.y.isNaN = false ∧ v.z.isNaN = false))
  | string s =>
    decidable_of_iff (s.utf8ByteSize < wordLimit ∧ s.toList.all isListable = true)
      (and_congr_right fun _ => List.all_eq_true)
  | void | int _ | bool _ | handle _ _ => isTrue trivial

/-! ## Which reader reads a literal -/

section Readers

variable {cs : List Char}

/-- A literal that is none of the words is read by its form. -/
theorem ofText?_eq_body (htrim : Text.Trimmed cs) (hne : cs ≠ [])
    (hwords : cs ∉ ["void".toList, "true".toList, "false".toList]) : ofText? cs = bodyOfText? cs := by
  simp only [List.mem_cons, List.not_mem_nil, or_false, not_or] at hwords
  unfold ofText?
  simp only [htrim.trim_eq, List.isEmpty_iff, if_neg hne, if_neg hwords.1, if_neg hwords.2.1,
    if_neg hwords.2.2]

theorem parenthesized?_eq_none (h : cs.head? ≠ some '(') : parenthesized? cs = none := by
  unfold parenthesized?
  split
  · exact absurd rfl h
  · rfl

/-- A literal that starts with no quote and no parenthesis is a handle or a number. -/
theorem bodyOfText?_of_head (hquote : cs.head? ≠ some '"') (hparen : cs.head? ≠ some '(') :
    bodyOfText? cs = match Text.splitAt? ':' cs with
      | some (kind, id) => handleOfText? kind id
      | none => numberOfText? cs := by
  unfold bodyOfText?
  split
  · exact absurd rfl hquote
  · cases Text.splitAt? ':' cs with
    | none => simp only [parenthesized?_eq_none hparen]
    | some fields => simp only [parenthesized?_eq_none hparen]

/-- **Numbers** start with a digit or a minus sign and hold no other character than numbers do. -/
theorem ofText?_number (hchars : ∀ c ∈ cs, Layout.isNumeralChar c = true)
    (hhead : ∃ c rest, cs = c :: rest ∧ (c.isDigit = true ∨ c = '-')) :
    ofText? cs = numberOfText? cs := by
  obtain ⟨c, rest, rfl, hc⟩ := hhead
  have hcolon : ':' ∉ c :: rest := fun hmem => by cases hchars _ hmem
  have hne : ∀ d : Char, d.isDigit = false → d ≠ '-' → c ≠ d := by
    rintro d hdigit hminus rfl
    rcases hc with hc | hc
    · rw [hdigit] at hc
      cases hc
    · exact hminus hc
  have htrim : Text.Trimmed (c :: rest) :=
    Text.trimmed_of_forall fun d hd => (Text.isWordChar_cases (isWordChar_of_isNumeralChar (hchars d hd))).1
  rw [ofText?_eq_body htrim (by simp), bodyOfText?_of_head, Text.splitAt?_eq_none hcolon]
  · intro h
    exact hne '"' rfl (by decide) (Option.some.inj h)
  · intro h
    exact hne '(' rfl (by decide) (Option.some.inj h)
  · simp only [List.mem_cons, List.not_mem_nil, or_false, not_or]
    refine ⟨?_, ?_, ?_⟩
    · intro h
      exact hne 'v' rfl (by decide) (List.cons.inj h).1
    · intro h
      exact hne 't' rfl (by decide) (List.cons.inj h).1
    · intro h
      exact hne 'f' rfl (by decide) (List.cons.inj h).1

end Readers

/-! ## Reading what was listed -/

theorem ofText?_int (n : Int32) : ofText? (Text.digitsOfInt n.toInt) = some (int n) := by
  rw [ofText?_number fun c => Layout.isNumeralChar_digitsOfInt, numberOfText?,
    Text.int32?_digitsOfInt]
  obtain ⟨c, cs, heq, hc, -⟩ := Text.exists_digitsOfNat n.toInt.natAbs
  unfold Text.digitsOfInt
  rw [heq]
  split
  · exact ⟨'-', _, rfl, .inr rfl⟩
  · exact ⟨c, _, rfl, .inl hc⟩

theorem ofText?_float {x : Single} (hx : x.isFinite = true) :
    ofText? (Layout.source.single x) = some (float x) := by
  have hchars : ∀ c ∈ Layout.source.single x, Layout.isNumeralChar c = true :=
    fun c => Single.isNumeralChar_single hx
  have hlast : (Layout.source.single x).getLast? ≠ some 'f' := by
    intro h
    cases hchars 'f' (List.mem_of_getLast? h)
  rw [ofText?_number hchars (Layout.exists_single hx), numberOfText?, Single.int32?_source hx]
  simp only [if_neg hlast, Single.ofText?_single _ (Single.isNaN_of_isFinite hx), Option.map_some]

/-- **Every string** can be written. -/
theorem ofText?_written (s : String) : ofText? (Text.written s.toList) = some (string s) := by
  have hclean := Text.clean_written s.toList
  rw [ofText?_eq_body hclean.trimmed hclean.nonempty, Text.written, bodyOfText?, Text.unquote?_written,
    Option.map_some, String.ofList_toList]
  unfold Text.written
  simp

theorem ofText?_string {s : String} (h : ∀ c ∈ s.toList, isListable c = true) :
    ofText? (quote s.toList) = some (string s) := by
  rw [Text.quote_eq_written h]
  exact ofText?_written s

/-- **Vectors** are read component by component. -/
theorem ofText?_vector {v w : Vector3} (hx : Single.ofText? (Layout.plain.single v.x) = some w.x)
    (hy : Single.ofText? (Layout.plain.single v.y) = some w.y)
    (hz : Single.ofText? (Layout.plain.single v.z) = some w.z) : ofText? v.text = some (vector w) := by
  have htrimmed : ∀ x : Single, Text.trim (Layout.plain.single x) = Layout.plain.single x := by
    intro x
    have htrim := Text.trimmed_of_forall fun c hc =>
      (Text.isWordChar_cases (Layout.isWordChar_single (l := Layout.plain) (x := x) hc).1).1
    exact htrim.trim_eq
  have hseparate : ∀ x : Single, ∀ c ∈ Layout.plain.single x, (c == '/' || c == ',') = false := by
    intro x c hc
    have hword := Layout.isWordChar_single hc
    have hcomma : c ≠ ',' := by
      rintro rfl
      cases hword.1
    simp [hword.2.1, hcomma]
  generalize hbody : Layout.plain.single v.x ++ '/' :: (Layout.plain.single v.y ++
    '/' :: Layout.plain.single v.z) = body
  have htext : v.text = '(' :: (body ++ [')']) := by
    rw [Vector3.text, ← hbody]
    simp
  have hfields : vectorOfText? body = some w := by
    unfold vectorOfText?
    rw [← hbody, Text.splitFields_append (hseparate _) rfl, Text.splitFields_append (hseparate _) rfl,
      Text.splitFields_eq_singleton (hseparate _)]
    simp [htrimmed, hx, hy, hz]
  have hparen : parenthesized? ('(' :: (body ++ [')'])) = some body := by
    simp [parenthesized?]
  have htrim : Text.Trimmed ('(' :: (body ++ [')'])) := by
    constructor
    · rintro c ⟨⟩
      rfl
    · intro c hc
      rw [← List.cons_append, List.getLast?_concat] at hc
      cases hc
      rfl
  rw [htext, ofText?_eq_body htrim (by simp) (by simp), bodyOfText?, hparen]
  · simp only [hfields, Option.map_some]
  · nofun

/-- Keywords are words of lower-case letters. -/
theorem keyword_cases (kind : HandleKind) :
    (∀ c ∈ kind.keyword.toList, isWordChar c = true ∧ c ≠ ':') ∧
      kind.keyword.toList.map Char.toLower = kind.keyword.toList ∧
      kind.keyword.toList.head? ≠ some '"' ∧ kind.keyword.toList.head? ≠ some '(' ∧
      kind.keyword.toList ≠ [] := by
  have hall : kind.keyword.toList.all (fun c => isWordChar c && c != ':') = true := by
    cases kind <;> decide
  refine ⟨?_, ?_⟩
  · intro c hc
    have hkept := List.all_eq_true.1 hall c hc
    simpa using hkept
  · cases kind <;> decide

theorem isWordChar_handle {kind : HandleKind} {id : Int32} :
    ∀ c ∈ kind.keyword.toList ++ ':' :: Text.digitsOfInt id.toInt, isWordChar c = true := by
  intro c hc
  rcases List.mem_append.1 hc with hc | hc
  · exact ((keyword_cases kind).1 c hc).1
  · rcases List.mem_cons.1 hc with rfl | hc
    · rfl
    · exact Text.isWordChar_digitsOfInt hc

theorem ofText?_handle (kind : HandleKind) (id : Int32) :
    ofText? (kind.keyword.toList ++ ':' :: Text.digitsOfInt id.toInt) = some (handle kind id) := by
  obtain ⟨hkeyword, hlower, hquote, hparen, hne⟩ := keyword_cases kind
  have hcolon : ':' ∉ kind.keyword.toList := fun hc => (hkeyword _ hc).2 rfl
  have htrimmed : ∀ {cs : List Char}, (∀ c ∈ cs, isWordChar c = true) → Text.Trimmed cs :=
    fun h => Text.trimmed_of_forall fun c hc => (Text.isWordChar_cases (h c hc)).1
  have hread : handleOfText? kind.keyword.toList (Text.digitsOfInt id.toInt) =
      some (handle kind id) := by
    unfold handleOfText?
    rw [(htrimmed fun c hc => (hkeyword c hc).1).trim_eq, hlower, String.ofList_toList,
      HandleKind.ofKeyword?_keyword, (htrimmed fun c => Text.isWordChar_digitsOfInt).trim_eq,
      Text.int32?_digitsOfInt]
    rfl
  have hhead : ∀ rest, (kind.keyword.toList ++ rest).head? = kind.keyword.toList.head? := by
    intro rest
    exact List.head?_append_of_ne_nil _ hne
  have hwords : ∀ w : List Char, ':' ∉ w →
      kind.keyword.toList ++ ':' :: Text.digitsOfInt id.toInt ≠ w := by
    rintro w hw rfl
    exact hw (by simp)
  rw [ofText?_eq_body (htrimmed isWordChar_handle) (by simp), bodyOfText?_of_head,
    Text.splitAt?_append hcolon]
  · exact hread
  · rwa [hhead]
  · rwa [hhead]
  · simp only [List.mem_cons, List.not_mem_nil, or_false, not_or]
    exact ⟨hwords _ (by decide), hwords _ (by decide), hwords _ (by decide)⟩

/-- **Literals read back,** if they are listable. -/
theorem ofText?_literalChars {v : Value} (hv : v.Listable) : ofText? v.literalChars = some v := by
  cases v with
  | void => decide +kernel
  | int n => exact ofText?_int n
  | float x => exact ofText?_float hv
  | bool b => cases b <;> decide +kernel
  | string s => exact ofText?_string hv.2
  | vector v =>
      obtain ⟨hx, hy, hz⟩ := hv
      exact ofText?_vector (Single.ofText?_single _ hx) (Single.ofText?_single _ hy)
        (Single.ofText?_single _ hz)
  | handle kind id => exact ofText?_handle kind id

/-- The listed form of a value that is no string holds word characters only. -/
theorem isWordChar_literalChars {v : Value} (hv : ∀ s, v ≠ string s) {c : Char} (hc : c ∈ v.literalChars) :
    isWordChar c = true := by
  cases v with
  | void => exact List.all_eq_true.1 (by decide) c hc
  | bool b => cases b <;> exact List.all_eq_true.1 (by decide) c hc
  | int n => exact Text.isWordChar_digitsOfInt hc
  | float x => exact (Layout.isWordChar_single hc).1
  | string s => exact absurd rfl (hv s)
  | handle kind id => exact isWordChar_handle c hc
  | vector v =>
      simp only [literalChars, chars, Vector3.text, List.mem_cons, List.mem_append, List.not_mem_nil,
        or_false] at hc
      rcases hc with rfl | hc | rfl | hc | rfl | hc | rfl
      · rfl
      · exact (Layout.isWordChar_single hc).1
      · rfl
      · exact (Layout.isWordChar_single hc).1
      · rfl
      · exact (Layout.isWordChar_single hc).1
      · rfl

/-- **Literals are clean:** no comment starts in one, and no line ends in one. -/
theorem clean_literalChars {v : Value} (hv : v.Listable) : Clean v.literalChars := by
  by_cases hstring : ∃ s, v = string s
  · obtain ⟨s, rfl⟩ := hstring
    exact Text.clean_quote hv.2
  · refine Text.clean_of_isWordChar ?_ fun c => isWordChar_literalChars fun s heq => hstring ⟨s, heq⟩
    cases v with
    | void => decide
    | bool b => cases b <;> decide
    | int n =>
        show Text.digitsOfInt n.toInt ≠ []
        unfold Text.digitsOfInt
        split
        · simp
        · exact Text.digitsOfNat_ne_nil _
    | float x =>
        obtain ⟨c, rest, heq, -⟩ := Layout.exists_single (l := Layout.source) hv
        show Layout.source.single x ≠ []
        rw [heq]
        simp
    | string s => exact absurd ⟨s, rfl⟩ hstring
    | handle kind id => simp [literalChars, chars]
    | vector v => simp [literalChars, chars, Vector3.text]

end Value
end CogMachine
