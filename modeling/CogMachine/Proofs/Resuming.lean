import CogMachine.Proofs.Restarting
import CogMachine.Proofs.Sessions

/-!
# Continuations that are resumed until they complete

A host executes a continuation again whenever it suspends. If no verb restarts, all that is left of the
executions are their cycles, one after the other: some of them suspend, which makes no difference to the next.

- `Finishes` tells such a course cycle by cycle. `Machine.suspends` says which of its cycles suspend; these
  are the ones that call `suspend` (`suspends_eq_calls`).
- `Session.exists_finishes` and `Finishes.exists_resume`: a session completes exactly as its course does.
-/

namespace CogMachine

namespace Machine

variable {S : Type} {e : Engine S} {limits : Limits}

def suspends (e : Engine S) (limits : Limits) (m : Machine S) : Bool :=
  (cycle e limits m).1 = .halted .suspended

theorem suspends_of_cycle {o : Outcome} {m m₁ : Machine S} (h : cycle e limits m = (o, m₁)) :
    m.suspends e limits = decide (o = .halted .suspended) := by
  rw [suspends, h]

end Machine

namespace Resumable

variable {σ : Type} {t : VerbTable (Handler σ)} {limits : Limits} {i : Nat}
variable {m m₁ m' : Machine (World σ)} {v : Value}

/-! ## Cycles that suspend -/

/-- **A cycle that suspends** has called `suspend` and does no more than move past the call. -/
theorem exists_of_suspended (ht : SoleSuspension t i)
    (hc : Machine.cycle (engine t) limits m = (.halted .suspended, m₁)) :
    ∃ (callers : Stack Frame) (f : Frame) (ins : Instruction) (keeps : Bool) (id : VerbId),
      m.continuation.frames = callers.push f ∧ f.script.program.decode f.counter = .ok ins ∧
      ins.opcode = .call keeps id ∧ id.number.toInt = i ∧ m₁ = m.advance ins.next := by
  obtain ⟨keeps, hcall⟩ := (Machine.cycle_eq_stopped (.inl ⟨rfl, rfl⟩)).1 hc
  obtain ⟨callers, f, ins, id, hf, hd, ho, hinvoke⟩ := hcall.decoded
  obtain ⟨v, hv, hhandler⟩ := exists_of_invoke hinvoke
  obtain ⟨hpos, hat⟩ := VerbTable.get_eq_ok hv
  have hid : id.number.toInt = i := by
    by_contra hne
    exact ht.others _ v hat (by omega) keeps (m.advance ins.next) (by rw [hhandler])
  rw [cycle_of_suspend limits ht hf hd ho hid] at hc
  exact ⟨callers, f, ins, keeps, id, hf, hd, ho, hid, (Prod.mk.inj hc).2.symm⟩

theorem isFinished_of_suspended (ht : SoleSuspension t i)
    (hc : Machine.cycle (engine t) limits m = (.halted .suspended, m₁)) :
    m₁.continuation.isFinished = false := by
  obtain ⟨callers, f, ins, _, _, hf, -, -, -, rfl⟩ := exists_of_suspended ht hc
  rw [Continuation.isFinished, Machine.advance_frames ins.next hf]
  rfl

/-- **The cycles that suspend** are those that call `suspend`. -/
theorem suspends_eq_calls (ht : SoleSuspension t i) (limits : Limits) (m : Machine (World σ)) :
    m.suspends (engine t) limits = (m.calls false i || m.calls true i) := by
  rw [Bool.eq_iff_iff, Bool.or_eq_true]
  constructor
  · intro h
    rcases hc : Machine.cycle (engine t) limits m with ⟨o, m₁⟩
    rw [Machine.suspends_of_cycle hc, decide_eq_true_eq] at h
    subst h
    obtain ⟨callers, f, ins, keeps, id, hf, hd, ho, hid, -⟩ := exists_of_suspended ht hc
    have hcalls : m.calls keeps i = true := by
      simp [Machine.calls, Machine.opcode?_of_decode hf hd, ho, hid]
    cases keeps with
    | false => exact .inl hcalls
    | true => exact .inr hcalls
  · intro h
    obtain ⟨keeps, hcalls⟩ : ∃ keeps, m.calls keeps i = true := by
      rcases h with h | h
      · exact ⟨false, h⟩
      · exact ⟨true, h⟩
    obtain ⟨callers, f, ins, id, hf, hd, ho, hid⟩ := Machine.exists_of_calls hcalls
    rw [Machine.suspends_of_cycle (cycle_of_suspend limits ht hf hd ho hid)]
    exact decide_eq_true rfl

/-! ## Courses -/

/-- **Finishing.** `Finishes t limits seen m v m'`: from `m`, and resumed whenever it suspends, a
continuation completes with `v` in `m'`. The cycles on the way begin in the states `seen`. -/
inductive Finishes (t : VerbTable (Handler σ)) (limits : Limits) :
    List (Machine (World σ)) → Machine (World σ) → Value → Machine (World σ) → Prop where
  | completed {m m' : Machine (World σ)} {v : Value} :
      Machine.cycle (engine t) limits m = (.halted (.completed v), m') →
      Finishes t limits [m] m v m'
  | next {seen : List (Machine (World σ))} {m m₁ m' : Machine (World σ)} {v : Value} :
      Machine.cycle (engine t) limits m = (.next, m₁) →
      Finishes t limits seen m₁ v m' → Finishes t limits (m :: seen) m v m'
  | resumed {seen : List (Machine (World σ))} {m m₁ m' : Machine (World σ)} {v : Value} :
      Machine.cycle (engine t) limits m = (.halted .suspended, m₁) →
      Finishes t limits seen m₁ v m' → Finishes t limits (m :: seen) m v m'

/-- What goes on is part of a course, and none of it suspends. -/
theorem Finishes.of_leads {seen seen' : List (Machine (World σ))} {b b' : Nat} (hr : NeverRestarts t)
    (hl : Leads t limits seen b m b' m₁) (h : Finishes t limits seen' m₁ v m') :
    Finishes t limits (seen ++ seen') m v m' ∧
      seen.countP (·.suspends (engine t) limits) = 0 := by
  induction hl with
  | refl => exact ⟨h, rfl⟩
  | next hc _ ih =>
      obtain ⟨hrest, hcount⟩ := ih h
      refine ⟨.next hc hrest, ?_⟩
      rw [List.countP_cons_of_neg (by simp [Machine.suspends_of_cycle hc])]
      exact hcount
  | restart hc _ _ => exact absurd hc (cycle_ne_restarting hr)

/-- **A course** is told by executing again and again. -/
theorem Finishes.resumes {seen : List (Machine (World σ))} (ht : SoleSuspension t i)
    (h : Finishes t limits seen m v m') (b : Nat) :
    Resumes t limits (seen.countP (·.suspends (engine t) limits)) b m (.ok (.completed v)) m' := by
  induction h generalizing b with
  | completed hc =>
      rw [List.countP_cons_of_neg (by simp [Machine.suspends_of_cycle hc])]
      exact .ended (passes_of_ends (.completed hc))
  | next hc _ ih =>
      rw [List.countP_cons_of_neg (by simp [Machine.suspends_of_cycle hc])]
      exact .of_next hc (ih b)
  | resumed hc _ ih =>
      rw [List.countP_cons_of_pos (by simp [Machine.suspends_of_cycle hc])]
      exact .of_suspended hc (isFinished_of_suspended ht hc) (ih _)

/-- **The last cycle** of an execution that completes, completes: none that suspends is the last of its
frame. -/
theorem SoleSuspension.cycle_of_completed (ht : SoleSuspension t i) {b : Nat}
    (h : Ends t limits m b (.ok (.completed v)) m') :
    Machine.cycle (engine t) limits m = (.halted (.completed v), m') := by
  generalize hr : (Except.ok (.completed v) : Except Fault Answer) = r at h
  cases h with
  | completed hc =>
      cases hr
      exact hc
  | suspended hc =>
      rw [suspension, isFinished_of_suspended ht hc, if_neg Bool.false_ne_true] at hr
      cases hr
  | faulted hc => cases hr
  | exhausted hc => cases hr

/-- The last cycle of an execution that suspends, suspends. -/
theorem Ends.cycle_of_suspended {b : Nat} (h : Ends t limits m b (.ok (.suspended v)) m') :
    Machine.cycle (engine t) limits m = (.halted .suspended, m') := by
  generalize hr : (Except.ok (.suspended v) : Except Fault Answer) = r at h
  cases h with
  | completed hc => cases hr
  | suspended hc => exact hc
  | faulted hc => cases hr
  | exhausted hc => cases hr

/-! ## Verbs of the host -/

section Host

variable {write : String → σ → σ}

/-- In the resumable host only `suspend` suspends. -/
theorem soleSuspension_host (write : String → σ → σ) :
    SoleSuspension (Host.resumableVerbs write) 4 where
  position := rfl
  handler v hv := by
    rw [verbs_host] at hv
    cases hv
    rfl
  others _ _ hv hj keeps m hs := by
    obtain ⟨_, hvalue⟩ := givesValue_of_ne hv hj keeps m _ hs
    cases hvalue

theorem neverRestarts_host : NeverRestarts (Host.resumableVerbs write) := by
  intro v hv keeps m hrestart
  obtain ⟨j, hj, hat⟩ := List.mem_iff_getElem.1 hv
  have hv : (Host.resumableVerbs write).verbs[j]? = some v := List.getElem?_eq_some_iff.2 ⟨hj, hat⟩
  by_cases hsuspend : j = 4
  · subst hsuspend
    rw [(soleSuspension_host write).handler v hv] at hrestart
    cases hrestart
  · obtain ⟨_, hvalue⟩ := givesValue_of_ne hv hsuspend keeps m _ hrestart
    cases hvalue

end Host

end Resumable

/-! ## Sessions -/

namespace Host.Session

open Resumable (Finishes Leads Ends Resumptions)

variable {s : Session}

/-- The engine of a session in the resumable mode. -/
abbrev engine : Engine (Resumable.World Console) := Resumable.engine (resumableVerbs Console.write)

/-- **States of a session.** Those of its executions, one after the other. -/
def visited (s : Session) (fuel : Nat) : Nat → Machine (Resumable.World Console) →
    List (Machine (Resumable.World Console))
  | 0, _ => []
  | turns + 1, m =>
    Resumable.visited (resumableVerbs Console.write) s.limits fuel s.limits.restarts m ++
      match Resumable.execute (resumableVerbs Console.write) s.limits fuel m with
      | some (.ok (.suspended _), m) => s.visited fuel turns m
      | _ => []

/-- **A session that completes** has a course, which begins its cycles in the states of the session. The
report counts those that suspend. -/
theorem exists_finishes {fuel turns n : Nat} {m : Machine (Resumable.World Console)} {report : Report}
    {console : Console} (hm : m.continuation.isFinished = false)
    (h : s.resume fuel turns n m = some (.ok report, console)) :
    ∃ m', Finishes (resumableVerbs Console.write) s.limits (s.visited fuel turns m) m report.value m' ∧
      m'.rest.services = console ∧
      report.suspensions = n + (s.visited fuel turns m).countP (·.suspends engine s.limits) := by
  induction turns generalizing n m with
  | zero => cases h
  | succ turns ih =>
      have hexecute : Resumable.execute (resumableVerbs Console.write) s.limits fuel m =
          Resumable.passes (resumableVerbs Console.write) s.limits fuel s.limits.restarts m := by
        rw [Resumable.execute, hm, if_neg Bool.false_ne_true]
      rw [resume] at h
      rw [visited]
      rcases hr : Resumable.execute (resumableVerbs Console.write) s.limits fuel m with
        _ | ⟨fault | v | v, m₂⟩
      · rw [hr] at h
        cases h
      · rw [hr] at h
        cases h
      · rw [hr] at h
        cases h
        obtain ⟨seen, b, m₁, hl, he, hv⟩ := Resumable.leads_of_passes (hexecute ▸ hr)
        have hc := (Resumable.soleSuspension_host _).cycle_of_completed he
        obtain ⟨hfinishes, hcount⟩ := (Finishes.completed hc).of_leads Resumable.neverRestarts_host hl
        rw [hv, List.append_nil]
        refine ⟨m₂, hfinishes, rfl, ?_⟩
        rw [List.countP_append, hcount, List.countP_cons_of_neg (by simp [Machine.suspends_of_cycle hc])]
        rfl
      · rw [hr] at h
        obtain ⟨seen, b, m₁, hl, he, hv⟩ := Resumable.leads_of_passes (hexecute ▸ hr)
        have hc := he.cycle_of_suspended
        have hlive := Resumable.isFinished_of_suspended (Resumable.soleSuspension_host _) hc
        obtain ⟨m', hrest, hconsole, hsuspensions⟩ := ih hlive h
        obtain ⟨hfinishes, hcount⟩ := (Finishes.resumed hc hrest).of_leads
          Resumable.neverRestarts_host hl
        rw [hv, List.append_assoc]
        refine ⟨m', hfinishes, hconsole, ?_⟩
        show report.suspensions = n + (seen ++ m₁ :: s.visited fuel turns m₂).countP _
        rw [List.countP_append, hcount,
          List.countP_cons_of_pos (by simp [Machine.suspends_of_cycle hc]), hsuspensions]
        omega

theorem resume_mono {fuel fuel' turns turns' n : Nat} {m : Machine (Resumable.World Console)}
    {x : Except Fault Report × Console} (hfuel : fuel ≤ fuel') (hturns : turns ≤ turns')
    (h : s.resume fuel turns n m = some x) : s.resume fuel' turns' n m = some x := by
  induction turns generalizing turns' n m with
  | zero => cases h
  | succ turns ih =>
      obtain ⟨turns', rfl⟩ : ∃ k, turns' = k + 1 := ⟨turns' - 1, by omega⟩
      rw [resume] at h ⊢
      rcases hr : Resumable.execute (resumableVerbs Console.write) s.limits fuel m with
        _ | ⟨fault | v | v, m₂⟩
      · rw [hr] at h
        cases h
      · rw [hr] at h
        rw [Resumable.execute_mono hfuel hr]
        exact h
      · rw [hr] at h
        rw [Resumable.execute_mono hfuel hr]
        exact h
      · rw [hr] at h
        rw [Resumable.execute_mono hfuel hr]
        exact ih (by omega) h

/-- **Executing again and again** is what a session does. -/
theorem exists_resume_of_resumptions {n : Nat} {m m' : Machine (Resumable.World Console)} {v : Value}
    (h : Resumptions (resumableVerbs Console.write) s.limits n m (.ok (.completed v)) m') :
    ∃ fuel, ∀ k, s.resume fuel fuel k m = some (.ok ⟨v, k + n⟩, m'.rest.services) := by
  generalize hr : (Except.ok (.completed v) : Except Fault Resumable.Answer) = r at h
  induction h with
  | @ended fuel m m' r h =>
      subst hr
      refine ⟨fuel + 1, fun k => ?_⟩
      rw [resume, Resumable.execute_mono (Nat.le_succ fuel) h]
      rfl
  | @again fuel n m m₁ m' w r h _ ih =>
      obtain ⟨fuel₁, hrest⟩ := ih hr
      refine ⟨max fuel fuel₁ + 1, fun k => ?_⟩
      rw [resume, Resumable.execute_mono (by omega : fuel ≤ max fuel fuel₁ + 1) h]
      show s.resume (max fuel fuel₁ + 1) (max fuel fuel₁) (k + 1) m₁ = _
      rw [resume_mono (by omega) (by omega) (hrest (k + 1)), Nat.add_right_comm, Nat.add_assoc]

/-- **A course** is that of a session that completes. -/
theorem exists_resume {seen : List (Machine (Resumable.World Console))}
    {m m' : Machine (Resumable.World Console)} {v : Value}
    (h : Finishes (resumableVerbs Console.write) s.limits seen m v m') :
    ∃ fuel, s.resume fuel fuel 0 m =
      some (.ok ⟨v, seen.countP (·.suspends engine s.limits)⟩, m'.rest.services) := by
  obtain ⟨fuel, hresume⟩ := exists_resume_of_resumptions
    (h.resumes (Resumable.soleSuspension_host _) s.limits.restarts).resumptions
  have hzero := hresume 0
  rw [Nat.zero_add] at hzero
  exact ⟨fuel, hzero⟩

end Host.Session
end CogMachine
