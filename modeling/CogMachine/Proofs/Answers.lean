import CogMachine.Proofs.Restarting

/-!
# Answers that can be trusted

An execution that does not fail answers that its continuation completed or that it suspended, and hosts
go by the answer alone. Verbs may do anything to the frames, so the last of them can be gone after a
return, after a verb that goes on, and after one that suspends or restarts.

- `Answer.TrueOf` says when an answer is true of what is left.
- `Machine.frames_of_completed`: a run completes only without frames, whichever instruction ended it.
- `Driven` are the states in which a host loop executes a continuation.
- `execute_truthful`: all answers are true, so no such loop resumes what is over or drops what is not.
-/

namespace CogMachine

namespace Machine

variable {S : Type} {e : Engine S} {limits : Limits} {m m' : Machine S} {v : Value}

/-- **A run completes** only where no frame is left. -/
theorem frames_of_completed (hc : cycle e limits m = (.halted (.completed v), m')) :
    m'.continuation.frames = .empty := by
  rcases cycle_cases e limits m with
    ⟨hf, hc'⟩ | ⟨_, _, _, -, -, hc'⟩ | ⟨callers, f, i, hf, hd, hc'⟩
  · rw [hc'] at hc
    cases hc
    exact hf
  · rw [hc'] at hc
    cases hc
  · rw [hc', settle_eq_halted] at hc
    rcases perform_eq_halt hc with ⟨ho, -⟩ | ⟨keeps, id, -, ⟨hh, -⟩ | ⟨hh, -⟩⟩
    · have hframes := advance_frames i.next hf
      rw [ho] at hc
      rcases callers.eq_empty_or_push with rfl | ⟨rest, caller, rfl⟩
      · simp only [perform, retire, Continuation.retire_last hframes] at hc
        cases hc
        rfl
      · -- a return to a caller goes on
        simp only [perform, retire, Continuation.retire_push_push hframes] at hc
        cases hc
    · cases hh
    · cases hh

end Machine

namespace Resumable

variable {σ : Type} {verbs : VerbTable (Handler σ)} {limits : Limits}

/-- **A true answer:** nothing is left of what completed, and what suspended has an innermost frame, with
this value in its return register. -/
def Answer.TrueOf (c : Continuation) : Answer → Prop
  | .completed _ => c.frames = .empty
  | .suspended v => ∃ f, c.top? = some f ∧ f.returned.getD .void = v

namespace Answer

variable {a : Answer} {c : Continuation}

theorem trueOf_suspension (c : Continuation) : (suspension c).TrueOf c := by
  unfold suspension
  rcases c.frames.eq_empty_or_push with hf | ⟨callers, f, hf⟩
  · rw [Continuation.isFinished, hf]
    exact hf
  · have htop : c.top? = some f := by
      rw [Continuation.top?, hf]
      rfl
    rw [Continuation.isFinished, hf]
    refine ⟨f, htop, ?_⟩
    rw [Continuation.result, htop]
    rfl

theorem TrueOf.completed_iff (h : a.TrueOf c) : (∃ v, a = .completed v) ↔ c.frames = .empty := by
  constructor
  · rintro ⟨v, rfl⟩
    exact h
  · intro hf
    cases a with
    | completed v => exact ⟨v, rfl⟩
    | suspended v =>
        obtain ⟨f, htop, -⟩ := h
        rw [Continuation.top?, hf] at htop
        cases htop

theorem TrueOf.suspended_iff (h : a.TrueOf c) (v : Value) :
    a = .suspended v ↔ ∃ f, c.top? = some f ∧ f.returned.getD .void = v := by
  constructor
  · rintro rfl
    exact h
  · rintro ⟨f, htop, rfl⟩
    cases a with
    | completed w =>
        have hf : c.frames = .empty := h
        rw [Continuation.top?, hf] at htop
        cases htop
    | suspended w =>
        obtain ⟨g, hg, rfl⟩ := h
        rw [htop] at hg
        cases hg
        rfl

end Answer

variable {m m' : Machine (World σ)} {a : Answer}

/-- **The last cycle** of an execution makes its answer true. -/
theorem Ends.trueOf {b : Nat} (h : Ends verbs limits m b (.ok a) m') : a.TrueOf m'.continuation := by
  cases h with
  | completed hc => exact Machine.frames_of_completed hc
  | suspended hc => exact Answer.trueOf_suspension m'.continuation

theorem trueOf_of_execute {fuel : Nat} (h : execute verbs limits fuel m = some (.ok a, m')) :
    a.TrueOf m'.continuation := by
  obtain ⟨fuel, hpasses⟩ := exists_execute_iff.mp ⟨fuel, h⟩
  obtain ⟨seen, b, m₁, -, hends, -⟩ := leads_of_passes hpasses
  exact hends.trueOf

/-- **A host loop** that began with `m₀` executes its continuation in these states, the number telling how
often it was resumed. It resumes what suspended, and may have changed memories and services by then. -/
inductive Driven (verbs : VerbTable (Handler σ)) (limits : Limits) (m₀ : Machine (World σ)) :
    Nat → Machine (World σ) → Prop where
  | start : Driven verbs limits m₀ 0 m₀
  | resumed {n fuel : Nat} {m m' : Machine (World σ)} {v : Value} (w : World σ) :
      Driven verbs limits m₀ n m → execute verbs limits fuel m = some (.ok (.suspended v), m') →
      Driven verbs limits m₀ (n + 1) ⟨m'.continuation, w⟩

/-- **A loop resumes** only what is not over. -/
theorem Driven.frames_ne_empty {m₀ : Machine (World σ)} {n : Nat} (h : Driven verbs limits m₀ (n + 1) m) :
    m.continuation.frames ≠ .empty := by
  intro hf
  cases h with
  | resumed w _ hrun =>
      obtain ⟨v, hv⟩ := (trueOf_of_execute hrun).completed_iff.mpr hf
      cases hv

/-- **Answers can be trusted.** An execution that does not fail answers that it completed exactly if no
frame is left, and that it suspended with a value exactly if there is an innermost frame with that value in
its return register. A continuation without frames completes with void and stays as it is. So a loop that
resumes what suspended never resumes a continuation that is over, and when it stops at one that completed
nothing is left of it. -/
theorem execute_truthful (verbs : VerbTable (Handler σ)) (limits : Limits) (m₀ : Machine (World σ)) :
    (∀ fuel a m', execute verbs limits fuel m₀ = some (.ok a, m') →
      ((∃ v, a = .completed v) ↔ m'.continuation.frames = .empty) ∧
      ∀ v, a = .suspended v ↔ ∃ f, m'.continuation.top? = some f ∧ f.returned.getD .void = v) ∧
    (m₀.continuation.frames = .empty →
      ∀ fuel, execute verbs limits fuel m₀ = some (.ok (.completed .void), m₀)) ∧
    ∀ n m, Driven verbs limits m₀ n m →
      (0 < n → m.continuation.frames ≠ .empty) ∧
      ∀ fuel v m', execute verbs limits fuel m = some (.ok (.completed v), m') →
        m'.continuation.frames = .empty := by
  refine ⟨?_, ?_, ?_⟩
  · intro fuel a m' hrun
    have htrue := trueOf_of_execute hrun
    exact ⟨htrue.completed_iff, htrue.suspended_iff⟩
  · intro hf fuel
    have hfinished : m₀.continuation.isFinished = true := Stack.isEmpty_iff.mpr hf
    rw [execute, if_pos hfinished]
  · intro n m hdriven
    constructor
    · intro hn
      obtain ⟨k, rfl⟩ : ∃ k, n = k + 1 := ⟨n - 1, by omega⟩
      exact hdriven.frames_ne_empty
    · intro fuel v m' hrun
      exact trueOf_of_execute hrun

/-- A table whose verb takes the calling frame away and suspends. -/
def quitOnly : VerbTable (Handler Unit) :=
  VerbTable.empty.add "quit" fun _ m =>
    (.ok .suspend, { m with continuation := m.continuation.popFrame.2 })

/-- What `pausing` leaves when it suspends: the calling frame, and the nested one past its call. -/
def pausingLeft : Machine (World Unit) :=
  ⟨(Continuation.ofFrame (.enter pausing 5)).pushFrame (.enter pausing 11), ⟨.empty, ()⟩⟩

/-- The verb of `quitOnly` suspends what is over; `pausing` is live when it suspends, and is resumed. -/
theorem execute_truthful_quitting :
    (∃ m', execute quitOnly .standard 5 enteringStart = some (.ok (.completed .void), m') ∧
      m'.continuation.frames = .empty ∧
      execute quitOnly .standard 0 m' = some (.ok (.completed .void), m')) ∧
    execute suspendOnly .standard 5 pausingStart = some (.ok (.suspended .void), pausingLeft) ∧
    (∃ f, pausingLeft.continuation.top? = some f ∧ f.returned.getD .void = .void) ∧
    pausingLeft.continuation.frames ≠ .empty ∧
    ∃ m', execute suspendOnly .standard 5 pausingLeft = some (.ok (.completed .void), m') ∧
      m'.continuation.frames = .empty := by
  have hquit : execute quitOnly .standard 5 enteringStart =
      some (.ok (.completed .void), ⟨.empty, ⟨.empty, ()⟩⟩) := rfl
  have hpause : execute suspendOnly .standard 5 pausingStart =
      some (.ok (.suspended .void), pausingLeft) := rfl
  have hdone : execute suspendOnly .standard 5 pausingLeft =
      some (.ok (.completed .void), ⟨.empty, ⟨.empty, ()⟩⟩) := rfl
  have hover := ((execute_truthful quitOnly .standard enteringStart).1 5 _ _ hquit).1.mp ⟨_, rfl⟩
  have hlive := ((execute_truthful suspendOnly .standard pausingStart).1 5 _ _ hpause).2 .void
  have hresumed := (execute_truthful suspendOnly .standard pausingStart).2.2 1 pausingLeft
    (.resumed _ .start hpause)
  exact ⟨⟨_, hquit, hover, (execute_truthful quitOnly .standard _).2.1 hover 0⟩, hpause, hlive.mp rfl,
    hresumed.1 Nat.one_pos, _, hdone, hresumed.2 5 _ _ hdone⟩

end Resumable
end CogMachine
