import CogMachine.Machine.Transient
import CogMachine.Proofs.Lockstep
import CogMachine.Proofs.Places
import CogMachine.Proofs.Restarting

/-!
# Limits on frames and operands

A nested call is refused when the frames are at their limit, and after an instruction that does not stop
the run the operands are counted. Verbs are watched less closely: the transient engine does not lend them
the frames, but in the resumable engine a verb may leave any number of frames, and one that asks for a
restart any number of operands, and the run goes on from there.

- `Within` are the states that keep both limits.
- `upheld_shallow`: no instruction but a call of a verb takes the frames past their limit.
- `Oversteps` is the one way out: a verb that goes on or restarts from beyond the limits.
- `Within.next`, `Within.restarting`: a cycle keeps the limits, or its verb oversteps.
- `limits_hold` is what both engines enforce over whole runs, and `overstepping_goes_on` a run that a
  verb takes past the limit on frames.
- `limits_only_guard`: larger limits change nothing but which runs fail with a limit. Each of the three
  guards is passed or not, and leaves no other mark.
-/

namespace CogMachine

namespace Machine

open CogMachine.Action (Meets Upholds)

variable {S : Type} {e : Engine S} {limits : Limits} {m m' : Machine S}

/-- **Within the limits.** -/
structure Within (limits : Limits) (m : Machine S) : Prop where
  depth : m.continuation.depth ≤ limits.callDepth
  operands : m.continuation.operands.height ≤ limits.stackDepth

instance (limits : Limits) (m : Machine S) : Decidable (Within limits m) :=
  decidable_of_iff (m.continuation.depth ≤ limits.callDepth ∧
    m.continuation.operands.height ≤ limits.stackDepth) ⟨fun h => ⟨h.1, h.2⟩, fun h => ⟨h.1, h.2⟩⟩

/-! ## Instructions -/

section Instructions

variable {n : Nat}

/-- At most so many frames. -/
def Shallow (n : Nat) (m : Machine S) : Prop := m.continuation.depth ≤ n

/-- An action that keeps to a number of frames, whatever its faults. -/
abbrev KeepsShallow {α : Type} (n : Nat) (a : Action (Machine S) α) : Prop :=
  Upholds (Shallow n) (fun _ => True) a

theorem upheldInFrame_shallow : UpheldInFrame e (Shallow n) (fun _ => True) fun _ => True := by
  refine upheldInFrame_of_operands trivial trivial (fun m hm operands => hm) ?_ ?_ ?_
  · intro m f address cause _ _ _
    trivial
  · intro m f address v hm _
    exact meets_inRest (fun rest => hm) fun _ _ => trivial
  · intro target _ m hm
    exact hm

/-- **The guard of a nested call.** It enters a frame only where there is room for one. -/
theorem keepsShallow_link (target : Nat) :
    KeepsShallow limits.callDepth (branch (S := S) limits target .link) := by
  refine upholds_link_of trivial trivial ?_
  intro m f hm htop hroom
  exact hroom

theorem keepsShallow_retire : KeepsShallow n (retire (S := S)) := by
  intro m hm
  show m.continuation.retire.2.frames.height ≤ n
  have hplaces := congrArg List.length m.continuation.places_retire
  simp only [Continuation.places, List.length_map, List.length_tail, ← Stack.height_eq] at hplaces
  have hdepth : m.continuation.frames.height ≤ n := hm
  omega

/-- **Instructions** do not take the frames past their limit. -/
theorem upheld_shallow :
    Upheld e limits (Shallow limits.callDepth) (fun _ => True) fun _ => True where
  toUpheldInFrame := upheldInFrame_shallow
  link target _ := keepsShallow_link target
  retire := keepsShallow_retire

end Instructions

/-! ## Cycles -/

/-- **Overstepping.** A verb is called that goes on with too many frames, or restarts with too many
frames or operands, and leaves `m'`. -/
inductive Oversteps (e : Engine S) (limits : Limits) (m m' : Machine S) : Prop where
  | goesOn {keeps : Bool} {v : Value} :
      CallAnswers e keeps (.ok (.value v)) m m' → limits.callDepth < m'.continuation.depth →
      Oversteps e limits m m'
  | restarts {keeps : Bool} :
      CallAnswers e keeps (.ok .restart) m m' → ¬ Within limits m' → Oversteps e limits m m'

/-- **The step.** A cycle that goes on keeps the limits, or its verb oversteps. -/
theorem Within.next (hm : Within limits m) (hc : cycle e limits m = (.next, m')) :
    Within limits m' ∨ ∃ left, Oversteps e limits m left := by
  have hoperands := within_of_cycle_next hc
  rcases cycle_cases e limits m with
    ⟨-, hc'⟩ | ⟨_, _, _, -, -, hc'⟩ | ⟨callers, f, i, hf, hd, hc'⟩
  · rw [hc'] at hc
    cases hc
  · rw [hc'] at hc
    cases hc
  · rw [hc', settle_eq_next] at hc
    by_cases hcall : ∃ keeps id, i.opcode = .call keeps id
    · obtain ⟨keeps, id, ho⟩ := hcall
      have hperform := hc.1
      rw [ho, perform_call] at hperform
      rcases hinv : e.invoke id keeps (m.advance i.next) with ⟨fault | v | _ | _, t⟩
      · rw [hinv] at hperform
        cases hperform
      · rw [hinv] at hperform
        have hdepth : m'.continuation.depth = t.continuation.depth := by
          cases keeps with
          | true | false =>
              cases hperform
              rfl
        by_cases hover : limits.callDepth < t.continuation.depth
        · exact .inr ⟨t, .goesOn ⟨i, id, instruction?_of_decode hf hd, ho, hinv⟩ hover⟩
        · exact .inl ⟨by omega, hoperands⟩
      · rw [hinv] at hperform
        cases hperform
      · rw [hinv] at hperform
        cases hperform
    · have hkept : Meets (Shallow limits.callDepth) (fun _ => True)
          (perform e limits i.opcode (m.advance i.next)) :=
        upheld_shallow.perform (by simpa using hcall) (fun _ _ => trivial) _ hm.depth
      rw [hc.1] at hkept
      exact .inl ⟨hkept, hoperands⟩

/-- A nested call with no room for a frame fails, and enters none. -/
theorem cycle_link_of_full {i : Instruction} {target : Nat} (hi : m.instruction? = some i)
    (ho : i.opcode = .branch .link target) (hfull : limits.callDepth ≤ m.continuation.depth) :
    ∃ fault, cycle e limits m = (.faulted fault, m.advance i.next) ∧
      fault.cause = .callStackOverflow limits.callDepth := by
  obtain ⟨callers, f, hf, hd⟩ := decoded_of_instruction? hi
  have hrefused : perform e limits i.opcode (m.advance i.next) =
      (.error (.ofCause (.callStackOverflow limits.callDepth)), m.advance i.next) := by
    have hbranch := branch_link limits target (top?_push (advance_frames i.next hf))
    rw [if_pos (show limits.callDepth ≤ (m.advance i.next).continuation.depth from hfull)] at hbranch
    rw [ho]
    exact Action.bind_error _ hbranch
  rw [cycle_of_decoded hf hd, hrefused]
  exact ⟨_, rfl, traced_cause ..⟩

/-- An instruction that would go on with too many operands fails. -/
theorem cycle_of_overfull {i : Instruction} (hi : m.instruction? = some i)
    (hp : perform e limits i.opcode (m.advance i.next) = (.ok none, m'))
    (hover : limits.stackDepth < m'.continuation.operands.height) :
    ∃ fault, cycle e limits m = (.faulted fault, m') ∧
      fault.cause = .stackOverflow limits.stackDepth := by
  obtain ⟨callers, f, hf, hd⟩ := decoded_of_instruction? hi
  rw [cycle_of_decoded hf hd, hp, settle, if_pos hover]
  exact ⟨_, rfl, traced_cause ..⟩

/-- A run leads to each of its states through those before it. -/
theorem steps_of_visited {fuel : Nat} {m m' : Machine S} {pre post : List (Machine S)}
    (h : visited e limits fuel m = pre ++ m' :: post) : Steps e limits pre m m' := by
  induction fuel generalizing m pre with
  | zero => cases pre <;> cases h
  | succ fuel ih =>
      simp only [visited] at h
      cases pre with
      | nil =>
          obtain ⟨rfl, -⟩ := List.cons.inj h
          exact .refl _
      | cons p pre =>
          rw [List.cons_append, List.cons.injEq] at h
          obtain ⟨rfl, h⟩ := h
          rcases hc : cycle e limits m with ⟨_ | halt | fault, m₁⟩
          · rw [hc] at h
            exact .step hc (ih h)
          · rw [hc] at h
            cases pre <;> cases h
          · rw [hc] at h
            cases pre <;> cases h

end Machine

/-! ## The transient engine -/

namespace Transient

open Machine (Within Oversteps)

variable {ω : Type} {limits : Limits} {m : Machine (State ω)}

theorem depth_invoke (verbs : VerbTable (Handler ω)) (id : VerbId) (m : Machine (State ω)) :
    (invoke verbs id m).2.continuation.depth = m.continuation.depth := by
  unfold invoke
  cases verbs.get id <;> rfl

theorem invoke_ne_restart (verbs : VerbTable (Handler ω)) (id : VerbId) (m : Machine (State ω)) :
    (invoke verbs id m).1 ≠ .ok .restart := by
  unfold invoke
  cases verbs.get id with
  | error cause => nofun
  | ok verb =>
      show (verb.handler ⟨m.continuation.operands, m.rest.host⟩).1.map Flow.value ≠ _
      cases (verb.handler ⟨m.continuation.operands, m.rest.host⟩).1 <;> nofun

/-- **No verb oversteps** that is not lent the frames and cannot ask for a restart. -/
theorem not_oversteps (verbs : VerbTable (Handler ω)) (hm : Within limits m) (left : Machine (State ω)) :
    ¬ Oversteps (engine verbs) limits m left := by
  rintro (⟨⟨ins, id, -, -, hinv⟩, hover⟩ | ⟨⟨ins, id, -, -, hinv⟩, -⟩)
  · have hkept : left.continuation.depth = m.continuation.depth := by
      have hleft := depth_invoke verbs id (m.advance ins.next)
      rw [show invoke verbs id (m.advance ins.next) = _ from hinv] at hleft
      exact hleft
    have hdepth := hm.depth
    omega
  · exact invoke_ne_restart verbs id _ (congrArg Prod.fst hinv)

/-- **Every state** of a run keeps the limits. -/
theorem within_of_visited (verbs : VerbTable (Handler ω)) {fuel : Nat} (hm : Within limits m) :
    ∀ s ∈ Machine.visited (engine verbs) limits fuel m, Within limits s := by
  induction fuel generalizing m with
  | zero => simp [Machine.visited]
  | succ fuel ih =>
      simp only [Machine.visited, List.forall_mem_cons]
      refine ⟨hm, ?_⟩
      rcases hc : Machine.cycle (engine verbs) limits m with ⟨_ | halt | fault, m₁⟩
      · rcases hm.next hc with hnext | ⟨left, hover⟩
        · exact ih hnext
        · exact absurd hover (not_oversteps verbs hm left)
      · simp
      · simp

end Transient

/-! ## The resumable engine -/

namespace Resumable

open Machine (Within Oversteps)

variable {σ : Type} {verbs : VerbTable (Handler σ)} {limits : Limits} {m s : Machine (World σ)}

/-- An execution leads to each of its states through those before it. -/
theorem leads_of_visited {fuel b : Nat} {pre post : List (Machine (World σ))}
    (h : visited verbs limits fuel b m = pre ++ s :: post) : ∃ b', Leads verbs limits pre b m b' s := by
  -- The state is one of the first pass, or of those after it; there are some only after a restart.
  have hfirst : ∀ {m : Machine (World σ)} {pre post : List (Machine (World σ))} {b : Nat},
      Machine.visited (engine verbs) limits fuel m = pre ++ s :: post →
      ∃ b', Leads verbs limits pre b m b' s :=
    fun h => ⟨_, .of_steps (Machine.steps_of_visited h) _⟩
  induction b generalizing m pre with
  | zero =>
      have hpass : visited verbs limits fuel 0 m = Machine.visited (engine verbs) limits fuel m := by
        rw [visited]
        split <;> simp
      exact hfirst (hpass ▸ h)
  | succ b ih =>
      by_cases hr : ∃ m₁, Machine.run (engine verbs) limits fuel m = some (.ok .restarting, m₁)
      · obtain ⟨m₁, hr⟩ := hr
        rw [visited_of_restart hr, List.append_eq_append_iff] at h
        obtain ⟨seen, m₂, hs, hstop, hv⟩ := Machine.run_eq_some hr
        cases hstop with
        | halted hc =>
            have hpass : Leads verbs limits (seen ++ [m₂]) (b + 1) m b m₁ :=
              (Leads.of_steps hs (b + 1)).trans (.restart hc (.refl b m₁))
            rw [hv] at h
            rcases h with ⟨rest, rfl, h⟩ | ⟨rest, h, hrest⟩
            · obtain ⟨b', hl⟩ := ih h
              exact ⟨b', hpass.trans hl⟩
            · cases rest with
              | nil =>
                  rw [List.nil_append] at hrest
                  have hnext : visited verbs limits fuel b m₁ = [] ++ s :: post := hrest.symm
                  obtain ⟨b', hl⟩ := ih hnext
                  rw [List.append_nil] at h
                  rw [← h, ← List.append_nil (seen ++ [m₂])]
                  exact ⟨b', hpass.trans hl⟩
              | cons s' rest =>
                  cases hrest
                  exact hfirst (hv.trans h)
      · have hpass : visited verbs limits fuel (b + 1) m =
            Machine.visited (engine verbs) limits fuel m := by
          rw [visited]
          split
          · rename_i m₁ hr'
            exact absurd ⟨m₁, hr'⟩ hr
          · rw [List.append_nil]
        exact hfirst (hpass ▸ h)

/-- **As long as no verb oversteps** the states of an execution keep the limits. -/
theorem Leads.within_of_not_oversteps {seen : List (Machine (World σ))} {b b' : Nat}
    (hl : Leads verbs limits seen b m b' s) (hm : Within limits m)
    (hnone : ∀ p ∈ seen, ∀ left, ¬ Oversteps (engine verbs) limits p left) : Within limits s := by
  induction hl with
  | refl => exact hm
  | next hc _ ih =>
      rw [List.forall_mem_cons] at hnone
      rcases hm.next hc with hnext | ⟨left, hover⟩
      · exact ih hnext hnone.2
      · exact absurd hover (hnone.1 left)
  | @restart _ _ _ _ m₁ _ hc _ ih =>
      rw [List.forall_mem_cons] at hnone
      obtain ⟨keeps, hr⟩ := cycle_eq_restarting.mp hc
      by_cases hleft : Within limits m₁
      · exact ih hleft hnone.2
      · exact absurd (.restarts hr hleft) (hnone.1 m₁)

end Resumable

/-! ## Whole runs -/

section Runs

open Machine (Within Oversteps)

/-- **What the limits promise.** Every state of a run of the transient engine keeps them, and every state
of an execution does as long as no verb has overstepped. An instruction that would go past a limit fails
instead: a nested call with no room for a frame, and any instruction that leaves too many operands. -/
theorem limits_hold (limits : Limits) :
    (∀ {ω : Type} (verbs : VerbTable (Transient.Handler ω)) (fuel : Nat)
      (m : Machine (Transient.State ω)), Within limits m →
      ∀ s ∈ Machine.visited (Transient.engine verbs) limits fuel m, Within limits s) ∧
    (∀ {σ : Type} (verbs : VerbTable (Resumable.Handler σ)) (fuel budget : Nat)
      (m s : Machine (Resumable.World σ)) (pre post : List (Machine (Resumable.World σ))),
      Within limits m → Resumable.visited verbs limits fuel budget m = pre ++ s :: post →
      (∀ p ∈ pre, ∀ left, ¬ Oversteps (Resumable.engine verbs) limits p left) → Within limits s) ∧
    (∀ {S : Type} (e : Engine S) (m : Machine S) (i : Instruction), m.instruction? = some i →
      (∀ target, i.opcode = .branch .link target → limits.callDepth ≤ m.continuation.depth →
        ∃ fault, Machine.cycle e limits m = (.faulted fault, m.advance i.next) ∧
          fault.cause = .callStackOverflow limits.callDepth) ∧
      (∀ m', Machine.perform e limits i.opcode (m.advance i.next) = (.ok none, m') →
        limits.stackDepth < m'.continuation.operands.height →
        ∃ fault, Machine.cycle e limits m = (.faulted fault, m') ∧
          fault.cause = .stackOverflow limits.stackDepth)) := by
  refine ⟨?_, ?_, ?_⟩
  · intro ω verbs fuel m hm
    exact Transient.within_of_visited verbs hm
  · intro σ verbs fuel budget m s pre post hm hv hnone
    obtain ⟨b', hl⟩ := Resumable.leads_of_visited hv
    exact hl.within_of_not_oversteps hm hnone
  · intro S e m i hi
    exact ⟨fun target ho hfull => Machine.cycle_link_of_full hi ho hfull,
      fun m' hp hover => Machine.cycle_of_overfull hi hp hover⟩

end Runs

namespace Resumable

open Machine (Within Oversteps)

/-- Room for one frame. -/
def narrow : Limits := { Limits.standard with callDepth := 1 }

/-- The nested call of `pausing` stays within the standard limits with either engine, and is refused by
the narrow ones. -/
theorem limits_hold_pausing :
    (∀ s ∈ Machine.visited (Transient.engine (.empty : VerbTable (Transient.Handler Unit))) .standard 5
      ⟨.ofFrame (.enter pausing 0), ⟨.empty, ()⟩⟩, Within .standard s) ∧
    (∃ m₁, Machine.cycle (engine suspendOnly) .standard pausingStart = (.next, m₁) ∧
      Within .standard m₁) ∧
    ∃ fault, Machine.cycle (engine suspendOnly) narrow pausingStart =
      (.faulted fault, pausingStart.advance 5) ∧ fault.cause = .callStackOverflow 1 := by
  refine ⟨?_, ⟨_, rfl, ?_⟩, ?_⟩
  · exact (limits_hold .standard).1 .empty 5 _ (by decide)
  · apply (limits_hold .standard).2.1 suspendOnly 2 0 pausingStart _ [pausingStart] [] (by decide) rfl
    -- the call is one of the script, not of a verb
    have hquiet : ∀ keeps r left, ¬ Machine.CallAnswers (engine suspendOnly) keeps r pausingStart left := by
      rintro keeps r left ⟨ins, id, hins, ho, -⟩
      cases hins
      cases ho
    intro p hp left hover
    obtain rfl := List.mem_singleton.mp hp
    cases hover with
    | goesOn h _ => exact hquiet _ _ _ h
    | restarts h _ => exact hquiet _ _ _ h
  · exact ((limits_hold narrow).2.2 (engine suspendOnly) pausingStart ⟨.branch .link 6, 0, 5⟩ rfl).1 6 rfl
      (by decide)

/-- **A verb oversteps.** It enters a frame where there is room for one only, the run goes on with two and
completes. -/
theorem overstepping_goes_on :
    Within narrow enteringStart ∧ ¬ Within narrow enteringLeft ∧
      enteringLeft ∈ visited enterOnly narrow 5 narrow.restarts enteringStart ∧
      execute enterOnly narrow 5 enteringStart = some (.ok (.completed .void), ⟨.empty, ⟨.empty, ()⟩⟩) := by
  refine ⟨by decide, by decide, ?_, rfl⟩
  exact List.mem_cons_of_mem _ List.mem_cons_self

end Resumable

/-! ## Larger limits -/

/-- **Larger limits:** none of the three is smaller. -/
instance : LE Limits where
  le l l' := l.callDepth ≤ l'.callDepth ∧ l.stackDepth ≤ l'.stackDepth ∧ l.restarts ≤ l'.restarts

/-- **Faults of limits:** what a run fails with that one of them stops. -/
def Limits.faults (l : Limits) : List Fault.Cause :=
  [.stackOverflow l.stackDepth, .callStackOverflow l.callDepth, .restartLimit l.restarts]

section Larger

variable {limits limits' : Limits}

/-- An engine goes in lockstep with itself under larger limits, until one of the smaller ones stops it. -/
theorem lawful_limits {S : Type} (e : Engine S) (h : limits ≤ limits') :
    (Comparison.losing S (· ∈ limits.faults)).Lawful e e limits limits' := by
  obtain ⟨hdepth, hheight, -⟩ := h
  apply Comparison.lawful_losing rfl rfl
  · intro keeps verb m
    exact .inr rfl
  · exact ⟨hdepth, .inr (by simp [Limits.faults])⟩
  · exact ⟨hheight, .inr (by simp [Limits.faults])⟩

/-- **Limits only guard.** A run fails with one of its limits, or it ends exactly as it does under larger
ones: with the same value or fault, and leaving the same. That is so for every fuel, so a run that no limit
stops goes on forever under the larger limits exactly if it does under the smaller. -/
theorem limits_only_guard (h : limits ≤ limits') :
    (∀ {ω : Type} (verbs : VerbTable (Transient.Handler ω)) (fuel : Nat) (script : Script)
      (s : Transient.State ω),
      (∀ entry, Comparison.LosesOrEqual (· ∈ limits.faults)
        (Transient.run verbs limits fuel script entry s)
        (Transient.run verbs limits' fuel script entry s)) ∧
      ∀ message, Comparison.LosesOrEqual (· ∈ limits.faults)
        (Transient.runMessage verbs limits fuel script message s)
        (Transient.runMessage verbs limits' fuel script message s)) ∧
    ∀ {σ : Type} (verbs : VerbTable (Resumable.Handler σ)) (fuel : Nat)
      (m : Machine (Resumable.World σ)), Comparison.LosesOrEqual (· ∈ limits.faults)
        (Resumable.execute verbs limits fuel m) (Resumable.execute verbs limits' fuel m) := by
  constructor
  · intro ω verbs fuel script s
    have hlawful := lawful_limits (Transient.engine verbs) h
    constructor
    · intro entry
      exact Comparison.transientRun_losing hlawful fuel script entry s
    · intro message
      exact Comparison.transientRunMessage_losing hlawful fuel script message s
  · intro σ verbs fuel m
    have hlawful := lawful_limits (Resumable.engine verbs) h
    obtain ⟨-, -, hrestarts⟩ := h
    apply Comparison.execute_losing hlawful
    exact ⟨hrestarts, .inr (by simp [Limits.faults])⟩

end Larger

namespace Resumable

/-- The narrow limits stop the nested call of `pausing`; the frame that a verb enters they do not stop, and
then the standard ones come to the same. -/
theorem limits_only_guard_narrow : narrow ≤ .standard ∧
    (∃ f m, execute suspendOnly narrow 5 pausingStart = some (.error f, m) ∧ f.cause ∈ narrow.faults) ∧
    execute enterOnly .standard 5 enteringStart = some (.ok (.completed .void), ⟨.empty, ⟨.empty, ()⟩⟩) := by
  have hle : narrow ≤ .standard := ⟨by decide, by decide, by decide⟩
  refine ⟨hle, ?_, ?_⟩
  · rcases (limits_only_guard hle).2 suspendOnly 5 pausingStart with hfails | heq
    · exact hfails
    · cases heq
  · have hdone : execute enterOnly narrow 5 enteringStart =
        some (.ok (.completed .void), ⟨.empty, ⟨.empty, ()⟩⟩) := rfl
    rcases (limits_only_guard hle).2 enterOnly 5 enteringStart with ⟨f, m, hfails, -⟩ | heq
    · rw [hdone] at hfails
      cases hfails
    · rw [← heq, hdone]

end Resumable
end CogMachine
