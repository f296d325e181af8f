import CogMachine.Proofs.Closing
import CogMachine.Proofs.Unbroken
import CogMachine.Proofs.Unresolved
import CogMachine.Script.Listing

/-!
# The heading of a listing

The listing of a script starts with comments: its name, its symbols, its messages. Below them is the program,
an instruction on each line. A default stands in its comment as people see it, so a string with a newline in it
breaks the comment, and what is behind the newline is no comment any more.

- `Script.lines_listing`: the lines of a listing, for any script.
- `Script.KeepsLines`: a comment for each thing in the heading, and an instruction on every other line.
- `heading_keepsLines`: the listing of an assembled script does so exactly if no default has a newline.
-/

namespace CogMachine

/-! ## Texts without newlines -/

namespace Text

theorem newline_notMem_digitsOfNat (n : Nat) : '\n' ∉ digitsOfNat n := (unbroken_digitsOfNat n).newline

/-- A text makes a line more than it has newlines. -/
theorem length_flatMap_pieces (texts : List (List Char)) : (texts.flatMap pieces).length =
    texts.length + (texts.map fun text => text.count '\n').sum := by
  induction texts with
  | nil => rfl
  | cons text texts ih =>
      rw [List.flatMap_cons, List.length_append, length_pieces, ih, List.map_cons, List.sum_cons,
        List.length_cons]
      omega

end Text

theorem ValueType.newline_notMem_keyword (type : ValueType) : '\n' ∉ type.keyword.toList := by
  cases type with
  | handle kind => cases kind <;> decide
  | void | int | float | bool | string | vector => decide

/-- **Only a string has newlines** in the form that people see. -/
theorem Value.newline_mem_chars {v : Value} :
    '\n' ∈ v.chars ↔ ∃ text, v = .string text ∧ '\n' ∈ text.toList := by
  constructor
  · intro hmem
    by_cases hstring : ∃ text, v = .string text
    · obtain ⟨text, rfl⟩ := hstring
      exact ⟨text, rfl, hmem⟩
    · have hv : ∀ text, v ≠ .string text := fun text heq => hstring ⟨text, heq⟩
      have hword : Text.isWordChar '\n' = true := by
        cases v with
        | float x => exact (Layout.isWordChar_single hmem).1
        | string text => exact absurd rfl (hv text)
        | void | int n | bool b | vector v | handle kind id => exact isWordChar_literalChars hv hmem
      exact absurd rfl (Text.isWordChar_cases hword).2.2.2
  · rintro ⟨text, rfl, hmem⟩
    exact hmem

theorem Assembly.newline_notMem_of_isName {cs : List Char} (h : isName cs = true) : '\n' ∉ cs :=
  (piece_of_isName h).newline

/-! ## Programs -/

/-- A program that has a listing is decoded to its end. -/
theorem Program.listing_eq_ok {p : Program} {listing : String} (h : p.listing = .ok listing) :
    ∃ is : List Instruction, p.instructions = is.map .ok ∧ listing = String.join (is.map line) := by
  obtain ⟨is, his, heq⟩ := Attempt.bind_eq_ok h
  cases heq
  refine ⟨is, ?_, rfl⟩
  have hitems := Attempt.forall₂_of_mapM his
  clear h his
  generalize p.instructions = items at hitems
  induction hitems with
  | nil => rfl
  | cons hitem _ ih => rw [List.map_cons, ← ih, ← hitem, id]

/-! ## Comments -/

namespace Script

open Text (pieces)

/-- The comment for a symbol. -/
def symbolText (s : Symbol) : String :=
  "; [" ++ toString s.address ++ "] " ++ s.type.keyword ++ " " ++ s.name ++ " = " ++ s.default.text ++
    if s.isLocal then " local" else ""

/-- The comment for a message. -/
def messageText (entry : String × Nat) : String :=
  "; message " ++ entry.1 ++ " @ " ++ toString entry.2

/-- **The comments** in front of a program. -/
def comments (s : Script) : List String :=
  ("; " ++ s.name) :: (s.symbols.symbols.map symbolText ++ s.exports.entries.map messageText)

/-- The texts of the comments, and the lines that they make. -/
def heading (s : Script) : List (List Char) := s.comments.flatMap fun text => pieces text.toList

theorem symbolLine_eq (s : Symbol) : symbolLine s = symbolText s ++ "\n" := by
  unfold symbolLine symbolText
  cases s.isLocal with
  | true =>
      have hmark : " local\n" = " local" ++ "\n" := rfl
      simp only [if_true, hmark, String.append_assoc]
      rfl
  | false =>
      simp only [Bool.false_eq_true, if_false, String.append_empty, String.append_assoc]
      rfl

theorem messageLine_eq (entry : String × Nat) : messageLine entry = messageText entry ++ "\n" := rfl

theorem toList_listing {s : Script} {listing code : String} (hcode : s.program.listing = .ok code)
    (h : s.listing = .ok listing) :
    listing.toList = Text.joined (s.comments.map String.toList) ++ code.toList := by
  have hname : ∀ name : String, s!"; {name}\n" = "; " ++ name ++ "\n" := fun _ => rfl
  have hnewline : "\n".toList = ['\n'] := rfl
  unfold Script.listing at h
  rw [hcode] at h
  cases h
  simp only [comments, Text.joined, hname, symbolLine_eq, messageLine_eq, String.toList_append,
    String.toList_join, List.flatMap_map, List.map_cons, List.map_append, List.map_map, List.flatMap_cons,
    List.flatMap_append, List.append_assoc, hnewline, Function.comp_apply]

/-- **The lines of a listing,** whatever its names and defaults are: what the comments make, and then the
instructions. -/
theorem lines_listing {s : Script} {listing : String} (h : s.listing = .ok listing) :
    ∃ is : List Instruction, s.program.instructions = is.map .ok ∧
      Text.lines listing.toList = s.heading ++ is.map Instruction.listed := by
  obtain ⟨code, hcode, -⟩ := Attempt.bind_eq_ok h
  obtain ⟨is, his, rfl⟩ := Program.listing_eq_ok hcode
  refine ⟨is, his, ?_⟩
  rw [toList_listing hcode h, Text.lines_joined_append, Program.lines_join_line, List.flatMap_map]
  rfl

/-! ## Counting lines -/

/-- How many lines a heading has if each comment keeps to its line. -/
def headingSize (s : Script) : Nat := 1 + s.symbols.size + s.exports.size

/-- The newlines in the defaults of a script. -/
def breaks (s : Script) : Nat := (s.symbols.symbols.map fun a => a.default.chars.count '\n').sum

/-- **Lines are kept:** one for each comment and one for each instruction, in this order. The assembler skips the
comments. -/
structure KeepsLines (s : Script) (is : List Instruction) (lines : List (List Char)) : Prop where
  count : lines.length = s.headingSize + is.length
  comments : ∀ line ∈ lines.take s.headingSize, line.head? = some ';' ∧ Assembly.said line = []
  code : lines.drop s.headingSize = is.map Instruction.listed

/-- **Names on one line:** neither the script nor a symbol nor a message has a newline in its name. -/
structure UnbrokenNames (s : Script) : Prop where
  script : '\n' ∉ s.name.toList
  symbol : ∀ a ∈ s.symbols.symbols, '\n' ∉ a.name.toList
  message : ∀ entry ∈ s.exports.entries, '\n' ∉ entry.1.toList

variable {s : Script} {is : List Instruction} {lines : List (List Char)}

theorem length_comments (s : Script) : s.comments.length = s.headingSize := by
  simp only [comments, headingSize, List.length_cons, List.length_append, List.length_map,
    SymbolTable.size, ExportTable.size]
  omega

/-- The newlines in the comment for a symbol are those of its default. -/
theorem count_symbolText {a : Symbol} (hname : '\n' ∉ a.name.toList) :
    (symbolText a).toList.count '\n' = a.default.chars.count '\n' := by
  have hliteral : ∀ text ∈ ["; [", "] ", " ", " = ", " local", ""], text.toList.count '\n' = 0 := by
    decide +kernel
  have haddress : (toString a.address).toList.count '\n' = 0 := by
    rw [Nat.toString_eq_ofList_toDigits, String.toList_ofList]
    exact List.count_eq_zero.2 (Text.newline_notMem_digitsOfNat a.address)
  have hlocal : (if a.isLocal then " local" else "").toList.count '\n' = 0 := by
    cases a.isLocal with
    | true | false => exact hliteral _ (by simp)
  simp only [symbolText, String.toList_append, List.count_append, haddress, hlocal,
    List.count_eq_zero.2 hname, List.count_eq_zero.2 a.type.newline_notMem_keyword, hliteral "; [" (by simp),
    hliteral "] " (by simp), hliteral " " (by simp), hliteral " = " (by simp), Value.text, String.toList_ofList,
    Nat.zero_add, Nat.add_zero]

theorem count_messageText {entry : String × Nat} (hname : '\n' ∉ entry.1.toList) :
    (messageText entry).toList.count '\n' = 0 := by
  have hliteral : ∀ text ∈ ["; message ", " @ "], text.toList.count '\n' = 0 := by decide +kernel
  have hoffset : (toString entry.2).toList.count '\n' = 0 := by
    rw [Nat.toString_eq_ofList_toDigits, String.toList_ofList]
    exact List.count_eq_zero.2 (Text.newline_notMem_digitsOfNat entry.2)
  simp only [messageText, String.toList_append, List.count_append, hoffset, List.count_eq_zero.2 hname,
    hliteral "; message " (by simp), hliteral " @ " (by simp)]

theorem UnbrokenNames.sum_comments (h : s.UnbrokenNames) :
    (s.comments.map fun text => text.toList.count '\n').sum = s.breaks := by
  have hscript : ("; " ++ s.name).toList.count '\n' = 0 := by
    rw [String.toList_append, List.count_append, List.count_eq_zero.2 h.script]
    rfl
  have hsymbols : (s.symbols.symbols.map symbolText).map (fun text => text.toList.count '\n') =
      s.symbols.symbols.map fun a => a.default.chars.count '\n' := by
    rw [List.map_map]
    apply List.map_congr_left
    intro a ha
    rw [Function.comp_apply, count_symbolText (h.symbol a ha)]
  have hmessages : ((s.exports.entries.map messageText).map fun text => text.toList.count '\n').sum = 0 := by
    rw [List.map_map, List.sum_eq_zero_iff]
    intro n hn
    obtain ⟨entry, hentry, rfl⟩ := List.mem_map.1 hn
    rw [Function.comp_apply, count_messageText (h.message entry hentry)]
  rw [comments, List.map_cons, List.sum_cons, hscript, List.map_append, List.sum_append, hsymbols, hmessages]
  simp [breaks]

theorem UnbrokenNames.length_heading (h : s.UnbrokenNames) :
    s.heading.length = s.headingSize + s.breaks := by
  have hlength := Text.length_flatMap_pieces (s.comments.map String.toList)
  rw [List.flatMap_map, List.length_map, List.map_map, length_comments] at hlength
  rw [← h.sum_comments]
  exact hlength

theorem breaks_eq_zero : s.breaks = 0 ↔
    ∀ a ∈ s.symbols.symbols, ∀ text, a.default = .string text → '\n' ∉ text.toList := by
  have hdefault : ∀ v : Value, v.chars.count '\n' = 0 ↔ ∀ text, v = .string text → '\n' ∉ text.toList := by
    intro v
    rw [List.count_eq_zero, Value.newline_mem_chars]
    simp
  simp only [breaks, List.sum_eq_zero_iff, List.forall_mem_map, hdefault]

/-! ## Comments that keep to their lines -/

/-- A line of a comment is one still. -/
theorem comment_dropReturn (text : List Char) : ∃ rest, Text.dropReturn (';' :: ' ' :: text) = ';' :: rest := by
  unfold Text.dropReturn
  split
  · exact ⟨_, rfl⟩
  · exact ⟨_, rfl⟩

theorem exists_of_mem_comments {text : String} (h : text ∈ s.comments) :
    ∃ rest, text.toList = ';' :: ' ' :: rest := by
  rcases List.mem_cons.1 h with rfl | h
  · exact ⟨_, String.toList_append⟩
  · rcases List.mem_append.1 h with h | h
    · obtain ⟨a, -, rfl⟩ := List.mem_map.1 h
      simp only [symbolText, String.toList_append, List.append_assoc]
      exact ⟨_, rfl⟩
    · obtain ⟨entry, -, rfl⟩ := List.mem_map.1 h
      simp only [messageText, String.toList_append, List.append_assoc]
      exact ⟨_, rfl⟩

/-- Without newlines each comment is a line. -/
theorem UnbrokenNames.mem_heading (h : s.UnbrokenNames) (hbreaks : s.breaks = 0) :
    ∀ line ∈ s.heading, line.head? = some ';' ∧ Assembly.said line = [] := by
  intro line hline
  obtain ⟨text, htext, hpiece⟩ := List.mem_flatMap.1 hline
  have hnewline : '\n' ∉ text.toList := by
    have hsum := h.sum_comments
    rw [hbreaks, List.sum_eq_zero_iff] at hsum
    exact List.count_eq_zero.1 (hsum _ (List.mem_map_of_mem htext))
  rw [Text.pieces_of_notMem hnewline, List.mem_singleton] at hpiece
  obtain ⟨rest, hrest⟩ := exists_of_mem_comments htext
  obtain ⟨rest', hrest'⟩ := comment_dropReturn rest
  rw [hpiece, hrest, hrest']
  exact ⟨rfl, rfl⟩

/-- **A listing keeps its lines** exactly if no default has a newline. -/
theorem UnbrokenNames.keepsLines_iff (h : s.UnbrokenNames)
    (hlines : lines = s.heading ++ is.map Instruction.listed) :
    s.KeepsLines is lines ↔
      ∀ a ∈ s.symbols.symbols, ∀ text, a.default = .string text → '\n' ∉ text.toList := by
  have hlength := h.length_heading
  rw [← breaks_eq_zero, hlines]
  constructor
  · -- The count alone rules out newlines in defaults: each makes a line that belongs to nothing.
    intro hkeeps
    have hcount := hkeeps.count
    rw [List.length_append, List.length_map] at hcount
    omega
  · intro hbreaks
    rw [hbreaks, Nat.add_zero] at hlength
    refine ⟨?_, ?_, ?_⟩
    · rw [List.length_append, List.length_map, hlength]
    · rw [List.take_append_of_le_length (Nat.le_of_eq hlength.symm), List.take_of_length_le (Nat.le_of_eq hlength)]
      exact h.mem_heading hbreaks
    · rw [← hlength, List.drop_left]

end Script

/-! ## Assembled scripts -/

open Assembly

variable {name source : String} {verbs : String → Option VerbId} {script : Script}

/-- An assembled script has the names of its source. -/
theorem unbrokenNames_of_assemble (h : assemble name source verbs = .ok script) (hname : '\n' ∉ name.toList) :
    script.UnbrokenNames := by
  obtain ⟨p, hstages⟩ := assemble_eq_ok.1 h
  refine ⟨hstages.name ▸ hname, fun a ha => ?_, fun entry hentry => ?_⟩
  · exact newline_notMem_of_isName (isName_of_declareSymbols hstages.symbols a ha)
  · have hexported := (perm_exportMessage hstages.exports).mem_iff.1
      (List.mem_map.2 ⟨entry, hentry, rfl⟩)
    obtain ⟨message, hmessage, heq⟩ := List.mem_map.1 hexported
    have hmem : message.2 ∈ messageNames (linesOf source) := by
      rw [← (follows_foldlM hstages.lines).messages]
      exact List.mem_map_of_mem hmessage
    rw [← (Prod.mk.inj heq).1]
    exact newline_notMem_of_isName (isName_of_mem_messageNames hstages.lines hmem)

/-- **The lines of a listing,** of a script that was assembled under a name without newlines. The instructions are
on the last lines, one on each. The comments above them make a line each, and another for each newline in a
default; so the listing keeps its lines exactly if no default is a string with a newline. -/
theorem heading_keepsLines {listing : String} (h : assemble name source verbs = .ok script)
    (hname : '\n' ∉ name.toList) (hlisting : script.listing = .ok listing) :
    ∃ is : List Instruction, script.program.instructions = is.map .ok ∧
      Text.lines listing.toList = script.heading ++ is.map Instruction.listed ∧
      script.heading.length = script.headingSize + script.breaks ∧
      (script.KeepsLines is (Text.lines listing.toList) ↔
        ∀ a ∈ script.symbols.symbols, ∀ text, a.default = .string text → '\n' ∉ text.toList) := by
  have hnames := unbrokenNames_of_assemble h hname
  obtain ⟨is, his, hlines⟩ := Script.lines_listing hlisting
  exact ⟨is, his, hlines, hnames.length_heading, hnames.keepsLines_iff hlines⟩

/-- A newline in an instruction is quoted, and a default without one is not. -/
def quoting : String := ".symbol string s = \"a b\" local\n.message main\nmain: push \"a\\nb\"\nret"

/-- Its listing keeps its lines. -/
theorem heading_keepsLines_quoting :
    ∃ script listing, assemble "t.cog" quoting (fun _ => none) = .ok script ∧
      script.listing = .ok listing ∧ ∃ is, script.KeepsLines is (Text.lines listing.toList) := by
  let script : Script :=
    { name := "t.cog"
      program := ⟨#[1, 4, 3, 0, 0, 0, 97, 10, 98, 50]⟩
      symbols := ⟨[{ Symbol.ofType "s" .string 0 with default := .string "a b", isLocal := true }]⟩
      exports := ⟨[("main", 0)]⟩ }
  have h : assemble "t.cog" quoting (fun _ => none) = .ok script := by decide +kernel
  have hlisting : script.listing = .ok ("; t.cog\n; [0] string s = a b local\n; message main @ 0\n" ++
      "     0: push \"a\\nb\"\n     9: ret\n") := by
    decide +kernel
  obtain ⟨is, -, -, -, hkeeps⟩ := heading_keepsLines h (by decide) hlisting
  refine ⟨script, _, h, hlisting, is, hkeeps.2 ?_⟩
  intro a ha text htext
  obtain rfl := List.mem_singleton.1 ha
  cases htext
  decide

/-- **A broken comment:** behind the newline of the default stands a line that is no comment, and none of the
instructions. -/
theorem not_keepsLines_default :
    ∃ script listing, assemble "t.cog" ".symbol string s = \"a\\nb\"\nret" (fun _ => none) = .ok script ∧
      script.listing = .ok listing ∧
      Text.lines listing.toList =
        ["; t.cog".toList, "; [0] string s = a".toList, "b".toList, "     0: ret".toList] ∧
      ∀ is, script.program.instructions = is.map .ok → ¬script.KeepsLines is (Text.lines listing.toList) := by
  let script : Script :=
    { name := "t.cog"
      program := ⟨#[50]⟩
      symbols := ⟨[{ Symbol.ofType "s" .string 0 with default := .string "a\nb" }]⟩
      exports := .empty }
  have h : assemble "t.cog" ".symbol string s = \"a\\nb\"\nret" (fun _ => none) = .ok script := by
    decide +kernel
  have hlisting : script.listing = .ok "; t.cog\n; [0] string s = a\nb\n     0: ret\n" := by decide +kernel
  have hlines : Text.lines "; t.cog\n; [0] string s = a\nb\n     0: ret\n".toList =
      ["; t.cog".toList, "; [0] string s = a".toList, "b".toList, "     0: ret".toList] := by
    decide +kernel
  have hinstructions : script.program.instructions.length = 1 := by decide +kernel
  refine ⟨script, _, h, hlisting, hlines, fun is his hkeeps => ?_⟩
  have hcount := hkeeps.count
  have hsize : script.headingSize = 2 := rfl
  rw [his, List.length_map] at hinstructions
  rw [hlines, hsize, hinstructions] at hcount
  cases hcount

end CogMachine
