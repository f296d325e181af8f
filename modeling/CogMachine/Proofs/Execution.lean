import CogMachine.Machine.Resumable
import CogMachine.Proofs.Cycle

/-!
# Executions

An execution is a run that starts anew after each restart, as long as its budget lasts. Here it is
told cycle by cycle, so that a statement about it needs one induction and not one for the passes and
another for the cycles of each.

- `Leads` is what keeps an execution going: cycles that go on, and restarts within the budget.
- `Ends` is how an execution ends in a state, if it does.
- `leads_of_passes` and `exists_passes_of_leads`: passes end exactly as these two say.
- `visited` lists the states in which the cycles of all passes begin.
-/

namespace CogMachine.Resumable

variable {σ : Type} {verbs : VerbTable (Handler σ)} {limits : Limits}

/-- Engines whose verbs do the same carry out an instruction alike. -/
theorem perform_congr {t t' : VerbTable (Handler σ)} {o : Opcode} {m : Machine (World σ)}
    (h : ∀ keeps id, o = .call keeps id →
      (engine t).invoke id keeps m = (engine t').invoke id keeps m) :
    Machine.perform (engine t) limits o m = Machine.perform (engine t') limits o m := by
  cases o with
  | push v | dup | ret | unary op | binary op => rfl
  | memory op address => cases op <;> rfl
  | branch op target => cases op <;> rfl
  | call keeps id => rw [Machine.perform_call, Machine.perform_call, h keeps id rfl]

/-- A call that is answered is that of a verb of the table. -/
theorem exists_of_invoke {id : VerbId} {keeps : Bool} {m m' : Machine (World σ)} {flow : Flow}
    (h : (engine verbs).invoke id keeps m = (.ok flow, m')) :
    ∃ v, verbs.get id = .ok v ∧ v.handler keeps m = (.ok flow, m') := by
  simp only [engine, invoke] at h
  cases hv : verbs.get id with
  | error cause =>
      rw [hv] at h
      cases h
  | ok v =>
      rw [hv] at h
      exact ⟨v, rfl, h⟩

/-- **Going on.** `Leads verbs limits seen b m b' m'`: with a budget of `b` restarts, `m` becomes `m'`,
where `b'` restarts are left. The cycles on the way begin in the states `seen`. -/
inductive Leads (verbs : VerbTable (Handler σ)) (limits : Limits) :
    List (Machine (World σ)) → Nat → Machine (World σ) → Nat → Machine (World σ) → Prop where
  | refl (b : Nat) (m : Machine (World σ)) : Leads verbs limits [] b m b m
  | next {seen : List (Machine (World σ))} {b b' : Nat} {m m₁ m' : Machine (World σ)} :
      Machine.cycle (engine verbs) limits m = (.next, m₁) →
      Leads verbs limits seen b m₁ b' m' → Leads verbs limits (m :: seen) b m b' m'
  | restart {seen : List (Machine (World σ))} {b b' : Nat} {m m₁ m' : Machine (World σ)} :
      Machine.cycle (engine verbs) limits m = (.halted .restarting, m₁) →
      Leads verbs limits seen b m₁ b' m' → Leads verbs limits (m :: seen) (b + 1) m b' m'

/-- **Ending.** How an execution with `b` restarts left ends in the cycle that begins in `m`. -/
inductive Ends (verbs : VerbTable (Handler σ)) (limits : Limits) (m : Machine (World σ)) :
    Nat → Except Fault Answer → Machine (World σ) → Prop where
  | completed {b : Nat} {v : Value} {m' : Machine (World σ)} :
      Machine.cycle (engine verbs) limits m = (.halted (.completed v), m') →
      Ends verbs limits m b (.ok (.completed v)) m'
  | suspended {b : Nat} {m' : Machine (World σ)} :
      Machine.cycle (engine verbs) limits m = (.halted .suspended, m') →
      Ends verbs limits m b (.ok (suspension m'.continuation)) m'
  | faulted {b : Nat} {f : Fault} {m' : Machine (World σ)} :
      Machine.cycle (engine verbs) limits m = (.faulted f, m') →
      Ends verbs limits m b (.error f) m'
  | exhausted {m' : Machine (World σ)} :
      Machine.cycle (engine verbs) limits m = (.halted .restarting, m') →
      Ends verbs limits m 0 (.error ((Fault.ofCause (.restartLimit limits.restarts)).withTrace
        m'.continuation.trace)) m'

theorem Leads.trans {seen seen' : List (Machine (World σ))} {b b₁ b' : Nat}
    {m m₁ m' : Machine (World σ)} (h : Leads verbs limits seen b m b₁ m₁)
    (h' : Leads verbs limits seen' b₁ m₁ b' m') : Leads verbs limits (seen ++ seen') b m b' m' := by
  induction h with
  | refl => exact h'
  | next hc _ ih => exact .next hc (ih h')
  | restart hc _ ih => exact .restart hc (ih h')

/-- Steps lead on, whatever the budget. -/
theorem Leads.of_steps {seen : List (Machine (World σ))} {m m' : Machine (World σ)}
    (h : Machine.Steps (engine verbs) limits seen m m') (b : Nat) :
    Leads verbs limits seen b m b m' := by
  induction h with
  | refl m => exact .refl b m
  | step hc _ ih => exact .next hc ih

/-! ## Passes -/

/-- **States of an execution.** Those of its passes, one after the other. -/
def visited (verbs : VerbTable (Handler σ)) (limits : Limits) (fuel : Nat) (budget : Nat)
    (m : Machine (World σ)) : List (Machine (World σ)) :=
  Machine.visited (engine verbs) limits fuel m ++
    match Machine.run (engine verbs) limits fuel m with
    | some (.ok .restarting, m) =>
      match budget with
      | 0 => []
      | budget + 1 => visited verbs limits fuel budget m
    | _ => []

theorem visited_of_run {fuel b : Nat} {m m' : Machine (World σ)} {r : Except Fault Halt}
    (hr : Machine.run (engine verbs) limits fuel m = some (r, m'))
    (hlast : r = .ok .restarting → b = 0) :
    visited verbs limits fuel b m = Machine.visited (engine verbs) limits fuel m := by
  rcases r with fault | v | _ | _
  · simp [visited, hr]
  · simp [visited, hr]
  · simp [visited, hr]
  · obtain rfl := hlast rfl
    simp [visited, hr]

theorem visited_of_restart {fuel b : Nat} {m m' : Machine (World σ)}
    (hr : Machine.run (engine verbs) limits fuel m = some (.ok .restarting, m')) :
    visited verbs limits fuel (b + 1) m =
      Machine.visited (engine verbs) limits fuel m ++ visited verbs limits fuel b m' := by
  rw [visited, hr]

/-- **Passes that end** have gone on for a while and then ended. -/
theorem leads_of_passes {fuel b : Nat} {m m' : Machine (World σ)} {r : Except Fault Answer}
    (h : passes verbs limits fuel b m = some (r, m')) :
    ∃ seen b₁ m₁, Leads verbs limits seen b m b₁ m₁ ∧ Ends verbs limits m₁ b₁ r m' ∧
      visited verbs limits fuel b m = seen ++ [m₁] := by
  -- Every way out ends after its first run; only a restart leads to further passes.
  fun_induction passes verbs limits fuel b m with
  | case1 b m hr => cases h
  | case2 b m fault m₂ hr =>
      cases h
      obtain ⟨seen, m₁, hs, hstop, hv⟩ := Machine.run_eq_some hr
      rw [visited_of_run hr (by simp)]
      cases hstop with
      | faulted hc => exact ⟨seen, b, m₁, .of_steps hs b, .faulted hc, hv⟩
  | case3 b m v m₂ hr =>
      cases h
      obtain ⟨seen, m₁, hs, hstop, hv⟩ := Machine.run_eq_some hr
      rw [visited_of_run hr (by simp)]
      cases hstop with
      | halted hc => exact ⟨seen, b, m₁, .of_steps hs b, .completed hc, hv⟩
  | case4 b m m₂ hr =>
      cases h
      obtain ⟨seen, m₁, hs, hstop, hv⟩ := Machine.run_eq_some hr
      rw [visited_of_run hr (by simp)]
      cases hstop with
      | halted hc => exact ⟨seen, b, m₁, .of_steps hs b, .suspended hc, hv⟩
  | case5 m m₂ hr =>
      cases h
      obtain ⟨seen, m₁, hs, hstop, hv⟩ := Machine.run_eq_some hr
      rw [visited_of_run hr (fun _ => rfl)]
      cases hstop with
      | halted hc => exact ⟨seen, 0, m₁, .of_steps hs 0, .exhausted hc, hv⟩
  | case6 m m₂ hr b ih =>
      obtain ⟨seen, m₁, hs, hstop, hv⟩ := Machine.run_eq_some hr
      obtain ⟨seen', b₃, m₃, hl, he, hv'⟩ := ih h
      rw [visited_of_restart hr, hv, hv']
      cases hstop with
      | halted hc =>
          refine ⟨seen ++ m₁ :: seen', b₃, m₃, ?_, he, by simp⟩
          exact (Leads.of_steps hs (b + 1)).trans (.restart hc hl)

theorem passes_mono {fuel fuel' b : Nat} {m m' : Machine (World σ)} {r : Except Fault Answer}
    (hle : fuel ≤ fuel') (h : passes verbs limits fuel b m = some (r, m')) :
    passes verbs limits fuel' b m = some (r, m') := by
  fun_induction passes verbs limits fuel b m with
  | case1 b m hr => cases h
  | case2 b m fault m₂ hr | case3 b m v m₂ hr | case4 b m m₂ hr | case5 m m₂ hr =>
      cases h
      rw [passes, Machine.run_mono hle hr]
  | case6 m m₂ hr b ih =>
      rw [passes, Machine.run_mono hle hr]
      exact ih h

theorem passes_of_next {fuel b : Nat} {m m₁ m' : Machine (World σ)} {r : Except Fault Answer}
    (hc : Machine.cycle (engine verbs) limits m = (.next, m₁))
    (h : passes verbs limits fuel b m₁ = some (r, m')) :
    passes verbs limits (fuel + 1) b m = some (r, m') := by
  have hrun : Machine.run (engine verbs) limits (fuel + 1) m =
      Machine.run (engine verbs) limits fuel m₁ := by
    simp only [Machine.run, hc]
  rw [passes] at h ⊢
  rw [hrun]
  rcases hr : Machine.run (engine verbs) limits fuel m₁ with _ | ⟨fault | v | _ | _, m₂⟩
  · rw [hr] at h
    cases h
  · simpa only [hr] using h
  · simpa only [hr] using h
  · simpa only [hr] using h
  · rw [hr] at h
    cases b with
    | zero => exact h
    | succ b => exact passes_mono (Nat.le_succ fuel) h

theorem passes_of_restart {fuel b : Nat} {m m₁ m' : Machine (World σ)} {r : Except Fault Answer}
    (hc : Machine.cycle (engine verbs) limits m = (.halted .restarting, m₁))
    (h : passes verbs limits fuel b m₁ = some (r, m')) :
    passes verbs limits (fuel + 1) (b + 1) m = some (r, m') := by
  have hrun : Machine.run (engine verbs) limits (fuel + 1) m = some (.ok .restarting, m₁) := by
    simp only [Machine.run, hc]
  rw [passes, hrun]
  exact passes_mono (Nat.le_succ fuel) h

theorem passes_of_ends {b : Nat} {m m' : Machine (World σ)} {r : Except Fault Answer}
    (h : Ends verbs limits m b r m') : passes verbs limits 1 b m = some (r, m') := by
  cases h with
  | completed hc | suspended hc | faulted hc | exhausted hc =>
      rw [passes]
      simp only [Machine.run, hc]

/-- **Passes end** where an execution that goes on ends. -/
theorem exists_passes_of_leads {seen : List (Machine (World σ))} {b b₁ : Nat}
    {m m₁ m' : Machine (World σ)} {r : Except Fault Answer}
    (hl : Leads verbs limits seen b m b₁ m₁) (he : Ends verbs limits m₁ b₁ r m') :
    ∃ fuel, passes verbs limits fuel b m = some (r, m') := by
  induction hl with
  | refl b m => exact ⟨1, passes_of_ends he⟩
  | next hc _ ih =>
      obtain ⟨fuel, h⟩ := ih he
      exact ⟨fuel + 1, passes_of_next hc h⟩
  | restart hc _ ih =>
      obtain ⟨fuel, h⟩ := ih he
      exact ⟨fuel + 1, passes_of_restart hc h⟩

theorem passes_unique {fuel fuel' b : Nat} {m m₁ m₂ : Machine (World σ)}
    {r₁ r₂ : Except Fault Answer} (h₁ : passes verbs limits fuel b m = some (r₁, m₁))
    (h₂ : passes verbs limits fuel' b m = some (r₂, m₂)) : r₁ = r₂ ∧ m₁ = m₂ := by
  have h₁' := passes_mono (Nat.le_max_left fuel fuel') h₁
  have h₂' := passes_mono (Nat.le_max_right fuel fuel') h₂
  rw [h₁'] at h₂'
  cases h₂'
  exact ⟨rfl, rfl⟩

/-- An execution of a finished continuation is one cycle, which completes. -/
theorem passes_of_isFinished {b : Nat} {m : Machine (World σ)}
    (h : m.continuation.isFinished = true) :
    passes verbs limits 1 b m = some (.ok (.completed .void), m) :=
  passes_of_ends (.completed (Machine.cycle_of_empty (Stack.isEmpty_iff.mp h)))

/-- The only state of an execution without frames is the one it starts in. -/
theorem eq_of_mem_visited {fuel b : Nat} {m s : Machine (World σ)}
    (h : m.continuation.isFinished = true) (hs : s ∈ visited verbs limits fuel b m) : s = m := by
  have hc : Machine.cycle (engine verbs) limits m = (.halted (.completed .void), m) :=
    Machine.cycle_of_empty (Stack.isEmpty_iff.mp h)
  cases fuel with
  | zero => simp [visited, Machine.visited, Machine.run] at hs
  | succ fuel => simpa [visited, Machine.visited, Machine.run, hc] using hs

/-- **Executions** are passes with a full budget, whether or not there is a frame left. -/
theorem exists_execute_iff {m m' : Machine (World σ)} {r : Except Fault Answer} :
    (∃ fuel, execute verbs limits fuel m = some (r, m')) ↔
      ∃ fuel, passes verbs limits fuel limits.restarts m = some (r, m') := by
  cases hf : m.continuation.isFinished with
  | true =>
      simp only [execute, hf, if_true]
      constructor
      · rintro ⟨_, h⟩
        cases h
        exact ⟨1, passes_of_isFinished hf⟩
      · rintro ⟨fuel, h⟩
        obtain ⟨rfl, rfl⟩ := passes_unique h (passes_of_isFinished hf)
        exact ⟨0, rfl⟩
  | false => simp [execute, hf]

theorem execute_mono {fuel fuel' : Nat} {m m' : Machine (World σ)} {r : Except Fault Answer}
    (hle : fuel ≤ fuel') (h : execute verbs limits fuel m = some (r, m')) :
    execute verbs limits fuel' m = some (r, m') := by
  rw [execute] at h ⊢
  by_cases hf : m.continuation.isFinished = true
  · rw [if_pos hf] at h ⊢
    exact h
  · rw [if_neg hf] at h ⊢
    exact passes_mono hle h

theorem execute_unique {fuel fuel' : Nat} {m m₁ m₂ : Machine (World σ)} {r₁ r₂ : Except Fault Answer}
    (h₁ : execute verbs limits fuel m = some (r₁, m₁))
    (h₂ : execute verbs limits fuel' m = some (r₂, m₂)) : r₁ = r₂ ∧ m₁ = m₂ := by
  have h₁' := execute_mono (Nat.le_max_left fuel fuel') h₁
  rw [execute_mono (Nat.le_max_right fuel fuel') h₂] at h₁'
  cases h₁'
  exact ⟨rfl, rfl⟩

end CogMachine.Resumable
