import CogMachine.Proofs.Editing
import CogMachine.Proofs.Resuming
import CogMachine.Proofs.Texts

/-!
# Sources spared of their suspensions

A source is spared of its suspensions when the calls of `suspend` are taken out and the labels on their lines
are kept (`spare?`). Everything behind them moves forward. What the script computes stays, as long as it is
resumed whenever it suspends.

- `Resumable.finishes_moving` and `Resumable.finishes_of_moving`: courses of the two scripts. A call that is
  left out suspends on one side, and there is nothing to do on the other; `exists_not_spared` resumes until
  both sides do the same again.
- `Assembly.edited_of_spared`: such a source is edited; `Assembly.texts_spared`: there is one for every
  source.
- `Session.completes_iff_spared` is the result for sessions.
-/

namespace CogMachine

namespace Resumable

variable {σ : Type} {r : Recoding} {os : List Opcode} {script script' : Script} {limits : Limits}
variable {t t' : VerbTable (Handler σ)} {i : Nat} {m : Machine (World σ)}

/-! ## Courses of recoded scripts -/

/-- **Sparing suspensions:** the calls that are left out are those of the verb at a position. -/
def Spares (r : Recoding) (os : List Opcode) (i : Nat) : Prop :=
  ∀ keeps id, .call keeps id ∈ os → (r.call? keeps id = none ↔ id.number.toInt = i)

/-- What is still ahead of the innermost frame. -/
def ahead (os : List Opcode) (m : Machine (World σ)) : Nat :=
  match m.continuation.top? with
  | some f => extent os - f.counter
  | none => 0

theorem Alike.eq_of_ne_faulted {o o' : Machine.Outcome} (h : Alike r os o o')
    (hf : (∀ f, o ≠ .faulted f) ∨ ∀ f, o' ≠ .faulted f) : o' = o := by
  rcases h with rfl | ⟨f, f', rfl, rfl, -⟩
  · rfl
  · rcases hf with hf | hf
    · exact absurd rfl (hf f)
    · exact absurd rfl (hf f')

/-- **One cycle that is spared** suspends, and leaves nothing to do for the other side. -/
structure Spared (t : VerbTable (Handler σ)) (limits : Limits) (script script' : Script) (r : Recoding)
    (os : List Opcode) (m m₁ : Machine (World σ)) : Prop where
  cycle : Machine.cycle (engine t) limits m = (.halted .suspended, m₁)
  same : (moving script' (r.relocate os)).state m₁ = (moving script' (r.relocate os)).state m
  placed : m₁.Placed script (Boundary os)
  closer : ahead os m₁ < ahead os m

section Courses

variable (h : script.Recoded r os script') (hcarry : CallsCarry r os script' t t')
  (he : Machine.Orderly (engine t)) (ht : SoleSuspension t i) (hspares : Spares r os i)

include h hcarry he ht hspares

/-- **One cycle.** It is the same on both sides and does not suspend, or it is spared. -/
theorem cycle_spared (limits : Limits) (hm : m.Placed script (Boundary os)) :
    (∃ o', Machine.cycle (engine t') limits ((moving script' (r.relocate os)).state m) =
        (o', (moving script' (r.relocate os)).state (Machine.cycle (engine t) limits m).2) ∧
      Alike r os (Machine.cycle (engine t) limits m).1 o' ∧
      (Machine.cycle (engine t) limits m).1 ≠ .halted .suspended) ∨
    ∃ m₁, Spared t limits script script' r os m m₁ := by
  have hclosed := Program.closed_boundary h.program h.aimed
  rcases cycle_cases h hcarry he limits hm with
    ⟨o', hc', halike, hkept⟩ | ⟨callers, f, keeps, verb, hf, hmem, hnone, hd, hsame⟩
  · refine .inl ⟨o', hc', halike, fun hs => ?_⟩
    obtain ⟨_, _, ins, keeps, id, hf, hd, ho, hid, -⟩ :=
      exists_of_suspended ht (Prod.ext hs rfl : Machine.cycle (engine t) limits m = (_, _))
    obtain ⟨hmem, hstays⟩ := hkept ins.opcode (Machine.opcode?_of_decode hf hd)
    rw [ho] at hmem hstays
    have hnone := (hspares keeps id hmem).2 hid
    rw [Recoding.keeps, hnone] at hstays
    cases hstays
  · have hid := (hspares keeps verb hmem).1 hnone
    have hc := cycle_of_suspend limits ht hf hd rfl hid
    have hplaced : (Machine.cycle (engine t) limits m).2.Placed script (Boundary os) :=
      hm.cycle he hclosed
    rw [hc] at hplaced
    have hframes := Machine.advance_frames (f.counter + 5) hf
    obtain ⟨⟨-, hboundary⟩, -⟩ := (Machine.placed_push hframes).1 hplaced
    refine .inr ⟨_, hc, moving_advance_leftOut hf hsame, hplaced, ?_⟩
    have hle : f.counter + 5 ≤ extent os := hboundary.le_extent
    simp only [ahead, Machine.top?_push hf, Machine.top?_push hframes]
    omega

/-- **Courses are spared** of their suspensions. The induction is on the course. -/
theorem finishes_moving {seen : List (Machine (World σ))} {m m' : Machine (World σ)} {v : Value}
    (hm : m.Placed script (Boundary os)) (hfinishes : Finishes t limits seen m v m') :
    ∃ seen', Finishes t' limits seen' ((moving script' (r.relocate os)).state m) v
        ((moving script' (r.relocate os)).state m') ∧
      seen'.countP (·.suspends (engine t') limits) = 0 := by
  have hclosed := Program.closed_boundary h.program h.aimed
  induction hfinishes with
  | @completed m m' v hc =>
      rcases cycle_spared h hcarry he ht hspares limits hm with
        ⟨o', hc', halike, -⟩ | ⟨m₁, hspared⟩
      · rw [hc] at hc' halike
        obtain rfl := halike.eq_of_ne_faulted (.inl nofun)
        refine ⟨_, .completed hc', ?_⟩
        rw [List.countP_cons_of_neg (by simp [Machine.suspends_of_cycle hc'])]
        rfl
      · rw [hspared.cycle] at hc
        cases hc
  | @next seen m m₁ m' v hc _ ih =>
      rcases cycle_spared h hcarry he ht hspares limits hm with
        ⟨o', hc', halike, -⟩ | ⟨m₂, hspared⟩
      · have hnext : (Machine.cycle (engine t) limits m).2.Placed script (Boundary os) :=
          hm.cycle he hclosed
        rw [hc] at hc' halike hnext
        obtain rfl := halike.eq_of_ne_faulted (.inl nofun)
        obtain ⟨seen', hrest, hcount⟩ := ih hnext
        refine ⟨_, .next hc' hrest, ?_⟩
        rw [List.countP_cons_of_neg (by simp [Machine.suspends_of_cycle hc'])]
        exact hcount
      · rw [hspared.cycle] at hc
        cases hc
  | @resumed seen m m₁ m' v hc _ ih =>
      rcases cycle_spared h hcarry he ht hspares limits hm with
        ⟨_, -, -, hne⟩ | ⟨m₂, hspared⟩
      · rw [hc] at hne
        exact absurd rfl hne
      · rw [hspared.cycle] at hc
        cases hc
        obtain ⟨seen', hrest, hcount⟩ := ih hspared.placed
        rw [hspared.same] at hrest
        exact ⟨seen', hrest, hcount⟩

/-- **Catching up.** A machine is resumed until the next cycle is not spared. The induction is on what is
still ahead. -/
theorem exists_not_spared (limits : Limits) (hm : m.Placed script (Boundary os)) :
    ∃ m₀, m₀.Placed script (Boundary os) ∧
      (moving script' (r.relocate os)).state m₀ = (moving script' (r.relocate os)).state m ∧
      (∃ o', Machine.cycle (engine t') limits ((moving script' (r.relocate os)).state m₀) =
          (o', (moving script' (r.relocate os)).state (Machine.cycle (engine t) limits m₀).2) ∧
        Alike r os (Machine.cycle (engine t) limits m₀).1 o' ∧
        (Machine.cycle (engine t) limits m₀).1 ≠ .halted .suspended) ∧
      ∀ seen v m', Finishes t limits seen m₀ v m' → ∃ seen', Finishes t limits seen' m v m' := by
  induction hn : ahead os m using Nat.strong_induction_on generalizing m with
  | _ n ih =>
      rcases cycle_spared h hcarry he ht hspares limits hm with hsame | ⟨m₁, hspared⟩
      · exact ⟨m, hm, rfl, hsame, fun seen v m' hf => ⟨seen, hf⟩⟩
      · obtain ⟨m₀, hplaced, hmoved, hcycle, hback⟩ := ih _ (hn ▸ hspared.closer) hspared.placed rfl
        refine ⟨m₀, hplaced, hmoved.trans hspared.same, hcycle, fun seen v m' hf => ?_⟩
        obtain ⟨seen', hrest⟩ := hback seen v m' hf
        exact ⟨_, .resumed hspared.cycle hrest⟩

/-- **Spared courses are those of the script.** The induction is on the course of the other side, which
may start where suspensions come first. -/
theorem finishes_of_moving {seen : List (Machine (World σ))} {m₁ m' : Machine (World σ)} {v : Value}
    (hfinishes : Finishes t' limits seen m₁ v m') {m : Machine (World σ)}
    (hm : m.Placed script (Boundary os)) (hm₁ : (moving script' (r.relocate os)).state m = m₁) :
    ∃ seen' m₂, Finishes t limits seen' m v m₂ ∧ (moving script' (r.relocate os)).state m₂ = m' := by
  have hclosed := Program.closed_boundary h.program h.aimed
  induction hfinishes generalizing m with
  | @completed m₁ m' v hc' =>
      obtain ⟨m₀, -, hsame, ⟨o', hcycle, halike, -⟩, hback⟩ :=
        exists_not_spared h hcarry he ht hspares limits hm
      rw [hsame, hm₁, hc', Prod.mk.injEq] at hcycle
      obtain ⟨rfl, rfl⟩ := hcycle
      have ho := halike.eq_of_ne_faulted (.inr nofun)
      obtain ⟨seen', hall⟩ := hback _ _ _ (.completed (Prod.ext ho.symm rfl))
      exact ⟨seen', _, hall, rfl⟩
  | @next seen m₁ m₂ m' v hc' _ ih =>
      obtain ⟨m₀, hplaced, hsame, ⟨o', hcycle, halike, -⟩, hback⟩ :=
        exists_not_spared h hcarry he ht hspares limits hm
      rw [hsame, hm₁, hc', Prod.mk.injEq] at hcycle
      obtain ⟨rfl, rfl⟩ := hcycle
      have ho := halike.eq_of_ne_faulted (.inr nofun)
      obtain ⟨seen', m₃, hrest, hend⟩ := ih (hplaced.cycle he hclosed) rfl
      obtain ⟨seen', hall⟩ := hback _ _ _ (.next (Prod.ext ho.symm rfl) hrest)
      exact ⟨seen', m₃, hall, hend⟩
  | @resumed seen m₁ m₂ m' v hc' _ _ =>
      obtain ⟨m₀, -, hsame, ⟨o', hcycle, halike, hne⟩, -⟩ :=
        exists_not_spared h hcarry he ht hspares limits hm
      rw [hsame, hm₁, hc', Prod.mk.injEq] at hcycle
      obtain ⟨rfl, -⟩ := hcycle
      exact absurd (halike.eq_of_ne_faulted (.inr nofun)).symm hne

end Courses
end Resumable

/-! ## Sources -/

namespace Assembly

open Host (Session)

variable {cs : List Char} {lines lines' : List Line}

/-- A text that calls `suspend` and drops what it gives. -/
def isSuspension (cs : List Char) : Bool :=
  mnemonic? cs = some (.call false) ∧ operand cs = "suspend".toList

/-- **What is left of a line** when it is spared of its suspension: all of it if it has none, otherwise only
its label. -/
def spare? (cs : List Char) : Option (List Char) :=
  match statement? ⟨0, cs⟩ with
  | some s => if isSuspension s.body then s.label.map fun name => name.toList ++ [':'] else some cs
  | none => some cs

/-- Calls of `suspend` are left out. -/
def sparing : Recoding := ⟨fun keeps verb => if keeps = false ∧ verb = ⟨4⟩ then none else some verb⟩

theorem call?_sparing_eq_none {keeps : Bool} {verb : VerbId} :
    sparing.call? keeps verb = none ↔ keeps = false ∧ verb = ⟨4⟩ := by
  simp [sparing]

theorem eq_of_call?_sparing {keeps : Bool} {verb verb' : VerbId}
    (h : sparing.call? keeps verb = some verb') : verb' = verb := by
  simp only [sparing] at h
  split at h
  · cases h
  · exact (Option.some.inj h).symm

theorem isName_of_statement? {line : Line} {name : String}
    (h : statement? line = some ⟨some name, cs⟩) : isName name.toList = true := by
  unfold statement? at h
  split at h
  · cases h
  · unfold splitLabel? at h
    cases hcut : (Text.splitAt? ':' line.text).filter fun x => isName x.1 with
    | none =>
        rw [hcut] at h
        cases h
    | some cut =>
        rw [hcut] at h
        cases h
        rw [String.toList_ofList]
        exact (Option.filter_eq_some_iff.1 hcut).2

/-- A name and a colon are a label. -/
theorem statement?_label {name : String} (h : isName name.toList = true) (number : Nat) :
    statement? ⟨number, name.toList ++ [':']⟩ = some ⟨some name, []⟩ := by
  have hchars := isNameChar_of_isName h
  have hcolon : ':' ∉ name.toList := by
    intro hmem
    cases hchars ':' hmem
  have hdirective : directive? (name.toList ++ [':']) = none := by
    cases hname : name.toList with
    | nil => rfl
    | cons c cs =>
        rw [List.cons_append, directive?]
        rintro rest ⟨⟩
        cases hchars '.' (hname ▸ List.mem_cons_self)
  have hlabel : splitLabel? (name.toList ++ [':']) = some (name.toList, []) := by
    rw [splitLabel?, Text.splitAt?_append hcolon, Option.filter_some, if_pos h]
  unfold statement?
  simp only [hdirective, hlabel, String.ofList_toList]
  rfl

/-- **Three kinds of lines:** with a suspension behind a label, with a suspension alone, and without. -/
theorem spare?_cases (cs : List Char) :
    (∃ name body, statement? ⟨0, cs⟩ = some ⟨some name, body⟩ ∧ isSuspension body = true ∧
      spare? cs = some (name.toList ++ [':'])) ∨
    (∃ body, statement? ⟨0, cs⟩ = some ⟨none, body⟩ ∧ isSuspension body = true ∧ spare? cs = none) ∨
    ((∀ s, statement? ⟨0, cs⟩ = some s → isSuspension s.body = false) ∧ spare? cs = some cs) := by
  unfold spare?
  cases hs : statement? ⟨0, cs⟩ with
  | none => exact .inr (.inr ⟨nofun, rfl⟩)
  | some s =>
      obtain ⟨label, body⟩ := s
      cases hbody : isSuspension body with
      | false =>
          refine .inr (.inr ⟨?_, by simp [hbody]⟩)
          rintro _ ⟨⟩
          exact hbody
      | true =>
          cases label with
          | none => exact .inr (.inl ⟨body, rfl, hbody, by simp [hbody]⟩)
          | some name => exact .inl ⟨name, body, rfl, hbody, by simp [hbody]⟩

theorem clean_label {name : String} (h : isName name.toList = true) : Clean (name.toList ++ [':']) := by
  have hchars : ∀ c ∈ name.toList ++ [':'], Text.isBlank c = false ∧ c ∉ ['\n', ';', '"'] := by
    intro c hc
    rcases List.mem_append.1 hc with hc | hc
    · obtain ⟨hblank, hrest⟩ := isNameChar_cases (isNameChar_of_isName h c hc)
      simp only [List.mem_cons, List.not_mem_nil, or_false, not_or] at hrest ⊢
      exact ⟨hblank, hrest.1, hrest.2.1, hrest.2.2.1⟩
    · obtain rfl := List.mem_singleton.1 hc
      decide
  refine ⟨by simp, ?_, Text.trimmed_of_forall fun c hc => (hchars c hc).1,
    Text.dropComment_eq_self fun c hc => ?_⟩
  · intro hnewline
    exact (hchars '\n' hnewline).2 (by decide)
  · have hnot := (hchars c hc).2
    simp only [List.mem_cons, List.not_mem_nil, or_false, not_or] at hnot
    exact hnot.2

/-- **The source that is spared of its suspensions.** -/
def spared (source : String) : String :=
  String.ofList (Text.joined ((linesOf source).filterMap fun line => spare? line.text))

/-- Its lines are what is left of the lines of the source. -/
theorem texts_spared (source : String) : (linesOf (spared source)).map Line.text =
    (linesOf source).filterMap fun line => spare? line.text := by
  have hclean : ∀ t ∈ (linesOf source).filterMap (fun line => spare? line.text), Clean t := by
    intro t ht
    obtain ⟨line, hline, hspare⟩ := List.mem_filterMap.1 ht
    rcases spare?_cases line.text with
      ⟨name, body, hs, -, hlabel⟩ | ⟨body, -, -, hnone⟩ | ⟨-, hall⟩
    · rw [hspare] at hlabel
      cases hlabel
      exact clean_label (isName_of_statement? hs)
    · rw [hspare] at hnone
      cases hnone
    · rw [hspare] at hall
      cases hall
      exact clean_of_mem_linesOf hline
  rw [spared, linesOf_joined hclean, List.map_map]
  exact List.zipIdx_map_fst 1 _

/-- Only `suspend` has its id. -/
theorem eq_suspend_of_verbId? {name : String} (h : Session.verbId? .resumable name = some ⟨4⟩) :
    name = "suspend" := by
  have hnames : Session.verbId? .resumable name =
      (["getsenderref", "getsourceref", "getparam", "returnex", "suspend", "print",
        "printint"].findIdx? (· == name)).map fun i => ⟨Int32.ofNat i⟩ := rfl
  rw [hnames] at h
  obtain ⟨i, hi, hid⟩ := Option.map_eq_some_iff.1 h
  obtain ⟨hlt, hname, -⟩ := List.findIdx?_eq_some_iff_getElem.1 hi
  have hfour : i = 4 := by
    have hall : ∀ i < 7, (⟨Int32.ofNat i⟩ : VerbId) = ⟨4⟩ → i = 4 := by decide
    exact hall i hlt hid
  subst hfour
  exact (beq_iff_eq.1 hname).symm

theorem leftOut_of_isSuspension (h : isSuspension cs = true) :
    LeftOut sparing (Session.verbId? .resumable) cs := by
  obtain ⟨hm, hoperand⟩ := of_decide_eq_true h
  exact ⟨false, ⟨4⟩, hm, by rw [hoperand]; rfl, rfl⟩

/-- Where calls name their verbs, what calls `suspend` says so. -/
theorem isSuspension_of_verb? (hhead : (operand cs).head? ≠ some '#')
    (hm : mnemonic? cs = some (.call false))
    (hverb : verb? (Session.verbId? .resumable) (operand cs) = some ⟨4⟩) : isSuspension cs = true := by
  rw [verb?_of_head _ hhead] at hverb
  refine decide_eq_true ⟨hm, ?_⟩
  rw [← eq_suspend_of_verbId? hverb, String.toList_ofList]

/-- **A source that is spared of its suspensions** is edited. -/
theorem edited_of_spared
    (hnames : ∀ line ∈ lines, ∀ s, statement? line = some s → ∀ keeps,
      mnemonic? s.body = some (.call keeps) → (operand s.body).head? ≠ some '#')
    (h : lines'.map Line.text = lines.filterMap fun line => spare? line.text) :
    Edited sparing (Session.verbId? .resumable) (Session.verbId? .resumable) lines lines' := by
  induction lines generalizing lines' with
  | nil =>
      rw [List.filterMap_nil, List.map_eq_nil_iff] at h
      rw [h]
      exact .nil
  | cons line lines ih =>
      rw [List.forall_mem_cons] at hnames
      rcases spare?_cases line.text with
        ⟨name, body, hs, hbody, hspare⟩ | ⟨body, hs, hbody, hspare⟩ | ⟨hbody, hspare⟩
      · rw [List.filterMap_cons_some (f := fun line : Line => spare? line.text) hspare] at h
        rcases lines' with _ | ⟨line', lines'⟩
        · cases h
        · rw [List.map_cons, List.cons.injEq] at h
          obtain ⟨number, text⟩ := line'
          obtain rfl : text = name.toList ++ [':'] := h.1
          exact .label hs (leftOut_of_isSuspension hbody)
            (statement?_label (isName_of_statement? hs) number) (ih hnames.2 h.2)
      · rw [List.filterMap_cons_none (f := fun line : Line => spare? line.text) hspare] at h
        exact .dropped hs (leftOut_of_isSuspension hbody) (ih hnames.2 h)
      · rw [List.filterMap_cons_some (f := fun line : Line => spare? line.text) hspare] at h
        rcases lines' with _ | ⟨line', lines'⟩
        · cases h
        · rw [List.map_cons, List.cons.injEq] at h
          refine .kept h.1 ?_ (ih hnames.2 h.2)
          intro s hs keeps verb hm hverb
          cases hcall : sparing.call? keeps verb with
          | some verb' =>
              obtain rfl := eq_of_call?_sparing hcall
              exact ⟨verb', rfl, hverb⟩
          | none =>
              obtain ⟨rfl, rfl⟩ := call?_sparing_eq_none.1 hcall
              have hcontra := isSuspension_of_verb? (hnames.1 s hs false hm) hm hverb
              rw [hbody s hs] at hcontra
              cases hcontra

end Assembly

/-! ## Sessions -/

namespace Host.Session

open Assembly (KeepsToLabels KeepsToNames StringsFit bodies edited_of_spared isSuspension linesOf
  mnemonic? operand spare? sparing statements)
open Resumable (CallsCarry Finishes Spares)

variable {s : Session} {name source source' : String} {script script' : Script} {os : List Opcode}
variable {v : Value} {n : Nat} {lines : List String}

/-- **Completing** with a value, after a number of suspensions and with these lines on the console. -/
def Completes (s : Session) (name source : String) (v : Value) (n : Nat) (lines : List String) : Prop :=
  ∃ fuel t, s.run fuel name source = some t ∧ t.result = .ok ⟨v, n⟩ ∧ t.console.lines = lines

/-- Whether the next instruction calls `suspend`. -/
def callsSuspend (m : Machine (Resumable.World Console)) : Bool := m.calls false 4 || m.calls true 4

/-- **How often `suspend` is executed** in a session that comes to an end. -/
def Suspends (s : Session) (name source : String) (n : Nat) : Prop :=
  ∃ fuel t script k, s.run fuel name source = some t ∧
    assemble name source (verbId? s.mode) = .ok script ∧ script.enter s.entry = .ok k ∧
    (s.visited fuel fuel (s.opened script k)).countP callsSuspend = n

theorem countP_callsSuspend (limits : Limits) (seen : List (Machine (Resumable.World Console))) :
    seen.countP callsSuspend = seen.countP (·.suspends engine limits) := by
  apply List.countP_congr
  intro m _
  rw [Resumable.suspends_eq_calls (Resumable.soleSuspension_host _) limits m, callsSuspend]

/-- A session that completes has shown its script, entered it and resumed it. -/
theorem completes_iff (hmode : s.mode = .resumable)
    (h : assemble name source (verbId? .resumable) = .ok script) :
    s.Completes name source v n lines ↔ (∃ text, s.dump script = .ok text) ∧
      ∃ k fuel console, script.enter s.entry = .ok k ∧
        s.resume fuel fuel 0 (s.opened script k) = some (.ok ⟨v, n⟩, console) ∧
        console.lines = lines := by
  unfold Completes
  simp only [run, hmode, h]
  cases hdump : s.dump script with
  | error cause =>
      constructor
      · rintro ⟨_, _, ⟨⟩, ⟨⟩, -⟩
      · rintro ⟨⟨_, ⟨⟩⟩, -⟩
  | ok text =>
      simp only [runResumable_eq]
      cases script.enter s.entry with
      | error cause =>
          constructor
          · rintro ⟨_, _, ⟨⟩, ⟨⟩, -⟩
          · rintro ⟨-, _, _, _, ⟨⟩, -⟩
      | ok k =>
          constructor
          · rintro ⟨fuel, t, ht, hresult, hlines⟩
            obtain ⟨⟨result, console⟩, hresume, rfl⟩ := Option.map_eq_some_iff.1 ht
            refine ⟨⟨text, rfl⟩, k, fuel, console, rfl, ?_, hlines⟩
            cases result with
            | error f => cases hresult
            | ok report =>
                cases hresult
                exact hresume
          · rintro ⟨-, _, fuel, console, ⟨⟩, hresume, hlines⟩
            refine ⟨fuel, shown text (.ok ⟨v, n⟩, console), ?_, rfl, hlines⟩
            show (s.resume fuel fuel 0 (s.opened script k)).map (shown text) = _
            rw [hresume]
            rfl

/-- **Suspensions are executed** as often as the session of a script counts them. -/
theorem suspends_iff (hmode : s.mode = .resumable)
    (h : assemble name source (verbId? .resumable) = .ok script)
    (hdump : ∃ text, s.dump script = .ok text) {k fuel m : Nat} {console : Console}
    (henter : script.enter s.entry = .ok k)
    (hresume : s.resume fuel fuel 0 (s.opened script k) = some (.ok ⟨v, m⟩, console)) :
    s.Suspends name source n ↔ n = m := by
  -- A session that ends with other fuel ends the same, and counts the same.
  have hcount : ∀ fuel' x, s.resume fuel' fuel' 0 (s.opened script k) = some x →
      (s.visited fuel' fuel' (s.opened script k)).countP callsSuspend = m := by
    intro fuel' x hx
    have hboth := resume_mono (Nat.le_max_left fuel fuel') (Nat.le_max_left fuel fuel') hresume
    rw [resume_mono (Nat.le_max_right fuel fuel') (Nat.le_max_right fuel fuel') hx] at hboth
    cases hboth
    obtain ⟨m', -, -, hsuspensions⟩ := exists_finishes (isFinished_opened s script k) hx
    rw [countP_callsSuspend s.limits, ← Nat.zero_add (List.countP _ _)]
    exact hsuspensions.symm
  obtain ⟨text, hdump⟩ := hdump
  have hrun : ∀ fuel, s.run fuel name source =
      (s.resume fuel fuel 0 (s.opened script k)).map (shown text) := by
    intro fuel
    simp only [run, hmode, h, hdump, runResumable_eq, henter]
  constructor
  · rintro ⟨fuel', t, script₁, k₁, ht, h₁, henter₁, rfl⟩
    rw [hmode, h] at h₁
    cases h₁
    rw [henter] at henter₁
    cases henter₁
    rw [hrun] at ht
    obtain ⟨x, hx, -⟩ := Option.map_eq_some_iff.1 ht
    exact hcount fuel' x hx
  · rintro rfl
    exact ⟨fuel, _, script, k, by rw [hrun, hresume]; rfl, by rw [hmode, h], henter, hcount fuel _ hresume⟩

/-- Calls that are not left out do the same in the other program. -/
theorem callsCarry_sparing : CallsCarry sparing os script' (resumableVerbs Console.write)
    (resumableVerbs Console.write) := by
  intro keeps verb verb' _ hverb
  obtain rfl := Assembly.eq_of_call?_sparing hverb
  intro m hm
  unfold Resumable.invoke
  cases hv : (resumableVerbs Console.write).get verb' with
  | error cause => exact .inl ⟨hm, rfl⟩
  | ok w => exact (Resumable.hostVerb_of_mem (VerbTable.mem_of_get hv)).carries keeps m hm

theorem spares_sparing (hos : ∀ verb, .call true verb ∈ os → verb ≠ ⟨4⟩) : Spares sparing os 4 := by
  intro keeps id hmem
  have hid : id.number.toInt = 4 ↔ id = ⟨4⟩ := by
    constructor
    · intro h
      obtain ⟨number⟩ := id
      rw [VerbId.mk.injEq, ← Int32.toInt_inj]
      exact h
    · rintro rfl
      rfl
  show sparing.call? keeps id = none ↔ id.number.toInt = 4
  rw [Assembly.call?_sparing_eq_none, hid]
  constructor
  · exact fun h => h.2
  · rintro rfl
    cases keeps with
    | false => exact ⟨rfl, rfl⟩
    | true => exact absurd rfl (hos _ hmem)

/-- A source that is spared of its suspensions can be assembled. -/
theorem assemble_spared (h : assemble name source (verbId? .resumable) = .ok script)
    (hlabels : KeepsToLabels (linesOf source)) (hstrings : StringsFit (linesOf source))
    (hnames : KeepsToNames (linesOf source))
    (hcallv : ∀ cs ∈ bodies (statements (linesOf source)), mnemonic? cs = some (.call true) →
      operand cs ≠ "suspend".toList)
    (hlast : ∀ cs, (bodies (statements (linesOf source))).getLast? = some cs → isSuspension cs = false)
    (hspared : (linesOf source').map Assembly.Line.text =
      (linesOf source).filterMap fun line => spare? line.text) :
    ∃ os script', Spares sparing os 4 ∧ assemble name source' (verbId? .resumable) = .ok script' ∧
      script.Recoded sparing os script' := by
  have hedited := edited_of_spared (fun line hline st hst keeps hm =>
    hnames st.body (Assembly.mem_bodies_of_statement? hline hst hm) keeps hm) hspared
  have hstays : ∀ cs, (bodies (statements (linesOf source))).getLast? = some cs →
      ¬ Assembly.LeftOut sparing (verbId? .resumable) cs := by
    rintro cs hcs ⟨keeps, verb, hm, hverb, hnone⟩
    obtain ⟨rfl, rfl⟩ := Assembly.call?_sparing_eq_none.1 hnone
    have hcalls := Assembly.isSuspension_of_verb? (hnames cs (List.mem_of_getLast? hcs) false hm) hm hverb
    rw [hlast cs hcs] at hcalls
    cases hcalls
  obtain ⟨os, script', hmeans, hscript', hrecoded⟩ := Assembly.assemble_edited h hlabels hstrings hedited hstays
  refine ⟨os, script', spares_sparing ?_, hscript', hrecoded⟩
  rintro verb hmem rfl
  obtain ⟨cs, hcs, hdenoted⟩ := hmeans.exists_body hmem
  obtain ⟨hm, hverb⟩ := Assembly.call_of_denoted? hdenoted
  rw [Assembly.verb?_of_head _ (hnames cs hcs true hm)] at hverb
  apply hcallv cs hcs hm
  rw [← Assembly.eq_suspend_of_verbId? hverb, String.toList_ofList]

/-- **Suspensions do not change what a script computes.** Take a source that can be assembled for the
resumable host, in which branches name labels, strings fit the count of their bytes, calls name verbs, no call
keeps what `suspend` gives, and the last instruction is no call of `suspend`. From the start of its program, or
from any message, it completes with a value, after a number of suspensions and with these lines on the console,
exactly if the source that is spared of its suspensions completes with the value, without suspensions and with
the same lines, and the number is how often `suspend` is executed. -/
theorem completes_iff_spared (hmode : s.mode = .resumable)
    (h : assemble name source (verbId? .resumable) = .ok script)
    (hlabels : KeepsToLabels (linesOf source)) (hstrings : StringsFit (linesOf source))
    (hnames : KeepsToNames (linesOf source))
    (hcallv : ∀ cs ∈ bodies (statements (linesOf source)), mnemonic? cs = some (.call true) →
      operand cs ≠ "suspend".toList)
    (hlast : ∀ cs, (bodies (statements (linesOf source))).getLast? = some cs → isSuspension cs = false)
    (hspared : (linesOf source').map Assembly.Line.text =
      (linesOf source).filterMap fun line => spare? line.text)
    (hentry : ∀ k, s.entry = .offset k → k = 0) (v : Value) (n : Nat) (lines : List String) :
    s.Completes name source v n lines ↔
      s.Completes name source' v 0 lines ∧ s.Suspends name source n := by
  obtain ⟨os, script', hspares, h', hrecoded⟩ := assemble_spared h hlabels hstrings hnames hcallv
    hlast hspared
  have hhost : Machine.Orderly (engine) :=
    Resumable.orderly_of_hostVerb fun v hv => Resumable.hostVerb_of_mem hv
  have hsole := Resumable.soleSuspension_host Console.write
  rw [completes_iff hmode h, completes_iff hmode h', exists_dump_recoded hrecoded]
  constructor
  · rintro ⟨hdump, k, fuel, console, henter, hresume, rfl⟩
    obtain ⟨m', hfinishes, rfl, -⟩ := exists_finishes (isFinished_opened s script k) hresume
    rcases hrecoded.enter_cases hentry with
      ⟨k₁, hk, henter₁, henter'⟩ | ⟨_, _, herror, -, -⟩
    · rw [henter] at henter₁
      cases henter₁
      obtain ⟨seen', hspared', hcount⟩ := Resumable.finishes_moving hrecoded callsCarry_sparing hhost hsole
        hspares (placed_opened s script hk) hfinishes
      rw [moving_opened hrecoded] at hspared'
      obtain ⟨fuel', hresume'⟩ := exists_resume hspared'
      rw [hcount] at hresume'
      exact ⟨⟨hdump, _, fuel', _, henter', hresume', rfl⟩,
        (suspends_iff hmode h hdump henter hresume).2 rfl⟩
    · rw [henter] at herror
      cases herror
  · rintro ⟨⟨hdump, k', fuel, console, henter', hresume', rfl⟩, hsuspends⟩
    rcases hrecoded.enter_cases hentry with ⟨k, hk, henter, henter₁⟩ | ⟨_, _, -, herror, -⟩
    · rw [henter'] at henter₁
      cases henter₁
      obtain ⟨m', hfinishes, rfl, -⟩ := exists_finishes (isFinished_opened s script' _) hresume'
      obtain ⟨seen, m₂, hall, hend⟩ := Resumable.finishes_of_moving hrecoded callsCarry_sparing hhost hsole
        hspares hfinishes (placed_opened s script hk) (moving_opened hrecoded s k)
      obtain ⟨fuel', hresume⟩ := exists_resume hall
      obtain rfl := (suspends_iff hmode h hdump henter hresume).1 hsuspends
      refine ⟨hdump, k, fuel', _, henter, hresume, ?_⟩
      rw [← hend]
      rfl
    · rw [henter'] at herror
      cases herror

/-- A source that counts down from two, waits before each number, and after it. -/
def waiting : String :=
  "push 2\nloop: call suspend\ndup\ncall printint\npush 1\nsub\ncall suspend ; wait\ndup\nbt loop\nret"

/-- The same, but it never waits. -/
def hurrying : String :=
  "push 2\nloop:\ndup\ncall printint\npush 1\nsub\n ; wait\ndup\nbt loop\nret"

/-- A session of the resumable engine as it is if nothing is asked for. -/
def plain : Session := ⟨.resumable, .offset 0, .empty, .standard, false⟩

theorem completes_iff_spared_waiting :
    plain.Completes "down" waiting (.int 0) 4 ["2", "1"] ∧
      plain.Completes "down" hurrying (.int 0) 0 ["2", "1"] ∧ plain.Suspends "down" waiting 4 := by
  have h : assemble "down" waiting (verbId? .resumable) = .ok
      { name := "down"
        program := ⟨#[1, 1, 2, 0, 0, 0, 48, 4, 0, 0, 0, 2, 48, 6, 0, 0, 0, 1, 1, 1, 0, 0, 0, 66, 48, 4, 0, 0,
          0, 2, 34, 6, 0, 0, 0, 50]⟩
        symbols := .empty
        exports := .empty } := by
    decide +kernel
  have hwaiting : (plain.run 40 "down" waiting).map (fun t => (t.console.lines, t.result.toOption)) =
      some (["2", "1"], some ⟨.int 0, 4⟩) := by
    decide +kernel
  have hcompletes : plain.Completes "down" waiting (.int 0) 4 ["2", "1"] := by
    obtain ⟨t, ht, hshown⟩ := Option.map_eq_some_iff.1 hwaiting
    rw [Prod.mk.injEq] at hshown
    refine ⟨40, t, ht, ?_, hshown.1⟩
    cases hresult : t.result with
    | error f =>
        rw [hresult] at hshown
        cases hshown.2
    | ok report =>
        rw [hresult] at hshown
        cases hshown.2
        rfl
  exact ⟨hcompletes, (completes_iff_spared rfl h (by decide +kernel) (by decide +kernel)
    (by decide +kernel) (by decide +kernel) (by decide +kernel) (by decide +kernel) (by rintro k ⟨⟩; rfl) _ _ _).1 hcompletes⟩

end Host.Session
end CogMachine
