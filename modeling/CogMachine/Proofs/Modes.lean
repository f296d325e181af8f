import CogMachine.Proofs.Editing
import CogMachine.Proofs.Sessions

/-!
# The two modes of a session

A source that can be assembled for the transient host can be assembled for the resumable one, whose printing
verbs have other ids. It runs alike in both modes.

- `Resumable.run_moving`: runs of recoded scripts from which nothing is left out.
- `printingVerbs` is between the two hosts: it has the ids of the transient one and the engine of the other.
  `sameVerbs_printing` compares it with the one, `callsCarry_shifting` with the other.
- `Session.modes_agree` puts these together.
-/

namespace CogMachine

/-! ## Runs of recoded scripts -/

namespace Resumable

variable {σ : Type} {r : Recoding} {os : List Opcode} {script script' : Script}
variable {t t' : VerbTable (Handler σ)} {m : Machine (World σ)}

/-- **Runs.** If nothing is left out, then the run of the recoded script is that of the script. -/
theorem run_moving (h : script.Recoded r os script') (ht : CallsCarry r os script' t t')
    (he : Machine.Orderly (engine t)) (hall : ∀ keeps verb, r.call? keeps verb ≠ none) (limits : Limits)
    (fuel : Nat) (hm : m.Placed script (Boundary os)) :
    Machine.run (engine t') limits fuel ((moving script' (r.relocate os)).state m) =
      (Machine.run (engine t) limits fuel m).map fun (x, m₁) =>
        (x, (moving script' (r.relocate os)).state m₁) := by
  have hkeeps : ∀ o ∈ os, r.keeps o = true := by
    intro o _
    cases o with
    | call keeps verb => exact Option.isSome_iff_ne_none.2 (hall keeps verb)
    | push | dup | memory | branch | ret | unary | binary => rfl
  induction fuel generalizing m with
  | zero => rfl
  | succ fuel ih =>
      have hnext : (Machine.cycle (engine t) limits m).2.Placed script (Boundary os) :=
        hm.cycle he (Program.closed_boundary h.program h.aimed)
      rcases cycle_cases h ht he limits hm with
        ⟨o', hc', halike, -⟩ | ⟨_, _, keeps, verb, -, -, hnone, -, -⟩
      · obtain rfl : o' = (Machine.cycle (engine t) limits m).1 := by
          rcases halike with rfl | ⟨f, f', hf, rfl, hsame⟩
          · rfl
          · rw [hf, hsame fun n => r.relocate_eq_self hkeeps n]
        rcases hc : Machine.cycle (engine t) limits m with ⟨_ | halt | fault, m₁⟩
        · rw [hc] at hc' hnext
          simp only [Machine.run, hc, hc']
          exact ih hnext
        · rw [hc] at hc'
          simp only [Machine.run, hc, hc']
          rfl
        · rw [hc] at hc'
          simp only [Machine.run, hc, hc']
          rfl
      · exact absurd hnone (hall keeps verb)

end Resumable

/-! ## Verbs of the two hosts -/

namespace Host

open Resumable (CallsCarry HostVerb SameVerbs Mirrors)

variable {σ : Type} {write : String → σ → σ}

/-- The printing verbs alone, under the ids that the transient host gives them. -/
def printingVerbs (write : String → σ → σ) : VerbTable (Resumable.Handler σ) :=
  (VerbTable.empty.add "print" (resumablePrint write Value.text)).add "printint"
    (resumablePrint write intLine)

/-- **From the transient host to the resumable one:** the printing verbs come behind five system verbs. -/
def shifting : Recoding := ⟨fun _ verb => some ⟨verb.number + 5⟩⟩

theorem mirrors_print (line : Value → String) :
    Mirrors id (transientPrint write line) (resumablePrint write line) := by
  rintro keeps ⟨⟨frames, operands⟩, rest⟩
  rcases operands.eq_empty_or_push with rfl | ⟨below, v, rfl⟩
  · exact ⟨rfl, rfl, rfl, rfl⟩
  · exact ⟨rfl, rfl, rfl, rfl⟩

theorem sameVerbs_printing (write : String → σ → σ) :
    SameVerbs id (transientVerbs write) (printingVerbs write) := by
  intro i
  rcases i with _ | _ | i
  · exact .some (mirrors_print Value.text)
  · exact .some (mirrors_print intLine)
  · exact .none

theorem hostVerb_printing {v : Verb (Resumable.Handler σ)} (h : v ∈ (printingVerbs write).verbs) :
    HostVerb write v.handler := by
  have hverbs : (printingVerbs write).verbs = [⟨"print", resumablePrint write Value.text⟩,
      ⟨"printint", resumablePrint write intLine⟩] := rfl
  rw [hverbs] at h
  simp only [List.mem_cons, List.not_mem_nil, or_false] at h
  rcases h with rfl | rfl
  · exact .print _
  · exact .print _

/-- **The names that the transient host knows,** and their ids. -/
theorem verbId?_transient {name : String} {verb : VerbId}
    (h : Session.verbId? .transient name = some verb) :
    (name = "print" ∧ verb = ⟨0⟩) ∨ (name = "printint" ∧ verb = ⟨1⟩) := by
  have hnames : Session.verbId? .transient name =
      (["print", "printint"].findIdx? (· == name)).map fun i => ⟨Int32.ofNat i⟩ := rfl
  rw [hnames] at h
  by_cases hprint : name = "print"
  · subst hprint
    exact .inl ⟨rfl, (Option.some.inj h).symm⟩
  · by_cases hint : name = "printint"
    · subst hint
      exact .inr ⟨rfl, (Option.some.inj h).symm⟩
    · simp [List.findIdx?_cons, Ne.symm hprint, Ne.symm hint] at h

/-- The resumable host knows these names, too. -/
theorem verbId?_resumable {name : String} {verb : VerbId}
    (h : Session.verbId? .transient name = some verb) :
    Session.verbId? .resumable name = some ⟨verb.number + 5⟩ := by
  rcases verbId?_transient h with ⟨rfl, rfl⟩ | ⟨rfl, rfl⟩
  · rfl
  · rfl

/-- Calls of the printing verbs do what the calls in their place do. -/
theorem callsCarry_shifting (write : String → σ → σ) {os : List Opcode} {script' : Script}
    (hos : ∀ keeps verb, .call keeps verb ∈ os → verb = ⟨0⟩ ∨ verb = ⟨1⟩) :
    CallsCarry shifting os script' (printingVerbs write) (resumableVerbs write) := by
  intro keeps verb verb' hmem hverb
  cases hverb
  rcases hos keeps verb hmem with rfl | rfl
  · have hprint : HostVerb write (resumablePrint write Value.text) := .print _
    exact hprint.carries keeps
  · have hprint : HostVerb write (resumablePrint write intLine) := .print _
    exact hprint.carries keeps

/-! ## Sessions -/

namespace Session

open Assembly (KeepsToLabels KeepsToNames StringsFit linesOf)

variable {s : Session} {script script' : Script} {os : List Opcode}

/-- A source that keeps to names can be assembled for the resumable host. -/
theorem assemble_resumable {name source : String}
    (h : assemble name source (verbId? .transient) = .ok script)
    (hlabels : KeepsToLabels (linesOf source)) (hstrings : StringsFit (linesOf source))
    (hnames : KeepsToNames (linesOf source)) :
    ∃ os script', (∀ keeps verb, .call keeps verb ∈ os → verb = ⟨0⟩ ∨ verb = ⟨1⟩) ∧
      assemble name source (verbId? .resumable) = .ok script' ∧
      script.Recoded shifting os script' := by
  have hstays : ∀ line ∈ linesOf source, ∀ st, Assembly.statement? line = some st →
      Assembly.Stays shifting (verbId? .transient) (verbId? .resumable) st.body := by
    intro line hline st hst keeps verb hm hverb
    have hhead := hnames st.body (Assembly.mem_bodies_of_statement? hline hst hm) keeps hm
    rw [Assembly.verb?_of_head _ hhead] at hverb
    refine ⟨_, rfl, ?_⟩
    rw [Assembly.verb?_of_head _ hhead]
    exact verbId?_resumable hverb
  have hkept : ∀ cs, ¬ Assembly.LeftOut shifting (verbId? .transient) cs := by
    rintro cs ⟨keeps, verb, -, -, hnone⟩
    cases hnone
  obtain ⟨os, script', hmeans, hscript', hrecoded⟩ := Assembly.assemble_edited h hlabels hstrings
    (Assembly.edited_of_stays hstays) fun cs _ => hkept cs
  refine ⟨os, script', ?_, hscript', hrecoded⟩
  intro keeps verb hmem
  obtain ⟨_, hname⟩ := Assembly.Means.name_of_call hmeans hnames hmem
  rcases verbId?_transient hname with ⟨-, hid⟩ | ⟨-, hid⟩
  · exact .inl hid
  · exact .inr hid

/-- **A session of the transient engine** checks its entry and runs from there. -/
theorem runTransient_eq (s : Session) (fuel : Nat) (listing : String) (script : Script) :
    s.runTransient fuel listing script =
      match script.enter s.entry with
      | .error cause => some (shown listing (.error (.ofCause cause), .empty))
      | .ok n =>
        (Machine.run (Transient.engine (transientVerbs Console.write)) s.limits fuel
          ⟨.ofFrame (.enter script n), ⟨Transient.reserve script.symbols .empty, .empty⟩⟩).map fun y =>
            shown listing (y.1.map fun halt => ⟨Transient.valueOf y.2 halt, 0⟩, y.2.rest.host) := by
  have hturn : s.runTransient fuel listing script =
      (Transient.turn (transientVerbs Console.write) s.limits script ⟨s.entry, s.context, fuel⟩
        ⟨.empty, .empty⟩).map fun y => shown listing (y.1.map fun v => ⟨v, 0⟩, y.2.host) := by
    obtain ⟨mode, entry, context, limits, printsListing⟩ := s
    cases entry with
    | message name =>
        simp only [runTransient, Transient.turn]
        congr 1
        funext y
        rcases y with ⟨_ | _, state⟩ <;> rfl
    | offset n =>
        simp only [runTransient, Transient.turn]
        congr 1
        funext y
        rcases y with ⟨_ | _, state⟩ <;> rfl
  rw [hturn, Transient.turn_eq]
  cases script.enter s.entry with
  | error cause => rfl
  | ok n =>
      simp only [Option.map_map]
      congr 1
      funext y
      rcases y with ⟨_ | _, m⟩ <;> rfl

/-- **The printing verbs** do in a session what they do in the transient engine. -/
theorem run_printing (s : Session) (fuel : Nat) (script : Script) (n : Nat) :
    Machine.run (Transient.engine (transientVerbs Console.write)) s.limits fuel
        ⟨.ofFrame (.enter script n), ⟨Transient.reserve script.symbols .empty, .empty⟩⟩ =
      (Machine.run (Resumable.engine (printingVerbs Console.write)) s.limits fuel
        (s.opened script n)).map fun y =>
          (y.1, Resumable.project id (Instance.create script .empty).1.memory y.2) := by
  obtain ⟨howned, hproject⟩ := (Resumable.agree_create id script .empty Console.empty).start n s.context
  obtain ⟨-, hrun⟩ := Resumable.run_project (sameVerbs_printing Console.write) s.limits fuel howned
  rw [hproject] at hrun
  exact hrun

/-- **Runs in both modes.** A recoded script does in the resumable mode what the script does in the
transient one. -/
theorem runResumable_recoded (h : script.Recoded shifting os script')
    (hos : ∀ keeps verb, .call keeps verb ∈ os → verb = ⟨0⟩ ∨ verb = ⟨1⟩)
    (hentry : ∀ n, s.entry = .offset n → n = 0) (fuel : Nat) (listing : String) :
    s.runResumable fuel listing script' = s.runTransient fuel listing script := by
  have hall : ∀ keeps verb, shifting.call? keeps verb ≠ none := by
    intro keeps verb hnone
    cases hnone
  have hstay : ∀ n, shifting.relocate os n = n := by
    apply Recoding.relocate_eq_self
    intro o _
    cases o <;> rfl
  rw [runTransient_eq, runResumable_eq]
  rcases h.enter_cases hentry with ⟨n, hn, henter, henter'⟩ | ⟨cause, cause', henter, henter', hsame⟩
  · have hmoved := Resumable.run_moving h (callsCarry_shifting Console.write hos)
      (Resumable.orderly_of_hostVerb fun v hv => hostVerb_printing hv) hall s.limits fuel
      (placed_opened s script hn)
    rw [moving_opened h] at hmoved
    simp only [henter, henter', run_printing s]
    cases fuel with
    | zero => rfl
    | succ fuel =>
        rw [resume, Resumable.execute, isFinished_opened, if_neg Bool.false_ne_true, Resumable.passes,
          hmoved]
        rcases hprinting : Machine.run (Resumable.engine (printingVerbs Console.write)) s.limits
          (fuel + 1) (s.opened script n) with _ | ⟨fault | halt, m₁⟩
        · rfl
        · rfl
        · -- The printing verbs neither suspend nor restart, so the run is resumed no further.
          obtain ⟨v, rfl⟩ := Resumable.completed_of_run (sameVerbs_printing Console.write) hprinting
          rfl
  · rw [henter, henter', hsame hstay]

/-- **The modes agree.** Take a source that can be assembled for the transient host, in which branches name
labels, strings fit the count of their bytes, and calls name verbs. From the start of its program, or from any
message, it comes to the same in both modes, for every fuel: to the same value with no suspensions, or to the
same failure, after the same lines on the console, or to nothing. -/
theorem modes_agree {name source : String} (h : assemble name source (verbId? .transient) = .ok script)
    (hlabels : KeepsToLabels (linesOf source)) (hstrings : StringsFit (linesOf source))
    (hnames : KeepsToNames (linesOf source))
    (hlisting : s.printsListing = false) (hentry : ∀ n, s.entry = .offset n → n = 0) (fuel : Nat) :
    { s with mode := .resumable }.run fuel name source =
      { s with mode := .transient }.run fuel name source ∧
    ∀ t report, { s with mode := .transient }.run fuel name source = some t → t.result = .ok report →
      report.suspensions = 0 := by
  obtain ⟨os, script', hos, h', hrecoded⟩ := assemble_resumable h hlabels hstrings hnames
  have htransient : { s with mode := .transient }.run fuel name source =
      { s with mode := .transient }.runTransient fuel "" script := by
    simp only [run, h, dump, hlisting, Bool.false_eq_true, if_false]
  have hresumable : { s with mode := .resumable }.run fuel name source =
      { s with mode := .resumable }.runResumable fuel "" script' := by
    simp only [run, h', dump, hlisting, Bool.false_eq_true, if_false]
  constructor
  · rw [htransient, hresumable]
    exact runResumable_recoded (s := { s with mode := .resumable }) hrecoded hos hentry fuel ""
  · intro t report ht hreport
    rw [htransient, runTransient] at ht
    obtain ⟨⟨x, state⟩, -, rfl⟩ := Option.map_eq_some_iff.1 ht
    cases x with
    | error f => cases hreport
    | ok v =>
        cases hreport
        rfl

/-- A source that prints the numbers down from two, and a last line. -/
def countingDown : String :=
  "push 2\nloop: dup\ncall printint\npush 1\nsub\ndup\nbt loop\npush \"done\"\ncall print\nret"

/-- It prints the same when the ids of its verbs are other ones. -/
theorem modes_agree_countingDown :
    (run ⟨.resumable, .offset 0, .empty, .standard, false⟩ 40 "down" countingDown).map
        (fun t => (t.console.lines, t.result.toOption)) =
      some (["2", "1", "done"], some ⟨.int 0, 0⟩) := by
  have h : assemble "down" countingDown (verbId? .transient) = .ok
      { name := "down"
        program := ⟨#[1, 1, 2, 0, 0, 0, 2, 48, 1, 0, 0, 0, 1, 1, 1, 0, 0, 0, 66, 2, 34, 6, 0, 0, 0,
          1, 4, 4, 0, 0, 0, 100, 111, 110, 101, 48, 0, 0, 0, 0, 50]⟩
        symbols := .empty
        exports := .empty } := by
    decide +kernel
  have htransient : (run ⟨.transient, .offset 0, .empty, .standard, false⟩ 40 "down" countingDown).map
      (fun t => (t.console.lines, t.result.toOption)) =
        some (["2", "1", "done"], some ⟨.int 0, 0⟩) := by
    decide +kernel
  obtain ⟨hsame, -⟩ := modes_agree (s := ⟨.transient, .offset 0, .empty, .standard, false⟩) h
    (by decide +kernel) (by decide +kernel) (by decide +kernel) rfl (by rintro n ⟨⟩; rfl) 40
  rw [hsame]
  exact htransient

end Session
end Host
end CogMachine
