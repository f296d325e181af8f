import CogMachine.Machine.SystemVerbs
import CogMachine.Proofs.Execution

/-!
# Suspension is transparent

A table in which only `suspend` suspends is compared with the same table in which `suspend` does
nothing (`skip`). One execution with the second table is cut by the first into as many executions as
there are calls of `suspend`, and nothing else changes.

The two engines agree on every cycle that does not call `suspend` (`cycle_add_skip`). At a call of it
one halts in the very state from which the other goes on, if the operands are within their limit: the
limit is not checked when a run halts (`cycle_suspend`). So an execution is cut at its calls
(`Leads.resumes`).

If there are too many operands, a restart left them (`Leads.exists_overfull`): a verb that asks for one may
leave more than the limit, for the same reason. Then a call of `suspend` shows it. Without suspending the
execution faults there, and with it goes on (`not_suspendsTransparently_overfilling`).
`resumptions_or_overfull` says that there is no other way.
-/

namespace CogMachine

namespace Machine

variable {S : Type}

/-- **Calls.** Whether the next instruction calls the verb at a position of the table. -/
def calls (keeps : Bool) (i : Nat) (m : Machine S) : Bool :=
  match m.opcode? with
  | some (.call k id) => k == keeps && id.number.toInt == i
  | _ => false

theorem not_calls_of_empty {m : Machine S} (keeps : Bool) (i : Nat)
    (h : m.continuation.frames = .empty) : m.calls keeps i = false := by
  simp [calls, opcode?, instruction?, Continuation.top?, h, Stack.empty, Stack.top?]

theorem exists_of_calls {keeps : Bool} {i : Nat} {m : Machine S} (h : m.calls keeps i = true) :
    ∃ (callers : Stack Frame) (f : Frame) (ins : Instruction) (id : VerbId),
      m.continuation.frames = callers.push f ∧ f.script.program.decode f.counter = .ok ins ∧
      ins.opcode = .call keeps id ∧ id.number.toInt = i := by
  rcases m.continuation.frames.eq_empty_or_push with hf | ⟨callers, f, hf⟩
  · rw [not_calls_of_empty keeps i hf] at h
    cases h
  · cases hd : f.script.program.decode f.counter with
    | error cause => simp [calls, opcode?, instruction?, top?_push hf, hd, Except.toOption] at h
    | ok ins =>
        simp only [calls, opcode?_of_decode hf hd] at h
        split at h
        · rename_i k id ho
          simp only [Bool.and_eq_true, beq_iff_eq] at h
          obtain ⟨rfl, hid⟩ := h
          exact ⟨callers, f, ins, id, hf, hd, Option.some.inj ho, hid⟩
        · cases h

end Machine

namespace Resumable

variable {σ : Type} {t : VerbTable (Handler σ)} {limits : Limits} {i : Nat}

def skip : Handler σ := fun _ => return .value .void

/-- **Sole suspension.** The verb `suspend` is at a position of the table, and no other suspends. -/
structure SoleSuspension (t : VerbTable (Handler σ)) (i : Nat) : Prop where
  position : t.index? "suspend" = some i
  handler : ∀ v, t.verbs[i]? = some v → v.handler = suspend
  others : ∀ j v, t.verbs[j]? = some v → j ≠ i → ∀ keeps m, (v.handler keeps m).1 ≠ .ok .suspend

/-- The id of `suspend` stands for it. -/
theorem SoleSuspension.get (ht : SoleSuspension t i) {id : VerbId} (hid : id.number.toInt = i) :
    ∃ v, t.get id = .ok v ∧ v.handler = suspend := by
  have hlt := (List.findIdx?_eq_some_iff_findIdx_eq.mp ht.position).1
  refine ⟨t.verbs[i], ?_, ht.handler _ (List.getElem?_eq_getElem hlt)⟩
  rw [VerbTable.get_eq, if_neg (by omega), show id.number.toInt.toNat = i by omega,
    List.getElem?_eq_getElem hlt]

/-- A call of `suspend` moves past itself and halts. -/
theorem cycle_of_suspend (limits : Limits) (ht : SoleSuspension t i) {m : Machine (World σ)}
    {callers : Stack Frame} {f : Frame} {ins : Instruction} {keeps : Bool} {id : VerbId}
    (hf : m.continuation.frames = callers.push f) (hd : f.script.program.decode f.counter = .ok ins)
    (ho : ins.opcode = .call keeps id) (hid : id.number.toInt = i) :
    Machine.cycle (engine t) limits m = (.halted .suspended, m.advance ins.next) := by
  obtain ⟨v, hv, hsuspend⟩ := ht.get hid
  rw [Machine.cycle_of_decoded hf hd, Machine.settle_eq_halted, ho, Machine.perform_call]
  simp only [engine, invoke, hv, hsuspend]
  rfl

/-! ## Cycles of the two engines -/

/-- **A cycle that does not call `suspend`** is the same with either table. -/
theorem cycle_add_skip (limits : Limits) (hi : t.index? "suspend" = some i) {m : Machine (World σ)}
    (h : ∀ keeps, m.calls keeps i = false) :
    Machine.cycle (engine (t.add "suspend" skip)) limits m = Machine.cycle (engine t) limits m := by
  rcases Machine.cycle_cases (engine t) limits m with
    ⟨hf, hc⟩ | ⟨callers, f, cause, hf, hd, hc⟩ | ⟨callers, f, ins, hf, hd, hc⟩
  · rw [hc, Machine.cycle_of_empty hf]
  · rw [hc, Machine.cycle_of_malformed hf hd]
  · rw [hc, Machine.cycle_of_decoded hf hd]
    congr 1
    apply perform_congr
    intro keeps id ho
    have hne : id.number.toInt ≠ i := by
      have hk := h keeps
      simpa only [Machine.calls, Machine.opcode?_of_decode hf hd, ho, beq_self_eq_true,
        Bool.true_and, beq_eq_false_iff_ne] using hk
    simp only [engine, invoke, VerbTable.get_add_of_ne skip hi hne]

/-- **A call of `suspend`** halts in the state from which a call of `skip` goes on if the operands are
within their limit, and faults if they are not. -/
theorem cycle_suspend (limits : Limits) (ht : SoleSuspension t i) {m : Machine (World σ)}
    (h : m.calls false i = true) :
    ∃ m₁, m₁.continuation.isFinished = false ∧ m₁.continuation.operands = m.continuation.operands ∧
      Machine.cycle (engine t) limits m = (.halted .suspended, m₁) ∧
      (m.continuation.operands.height ≤ limits.stackDepth ∧
          Machine.cycle (engine (t.add "suspend" skip)) limits m = (.next, m₁) ∨
        limits.stackDepth < m.continuation.operands.height ∧
          ∃ fault, fault.cause = .stackOverflow limits.stackDepth ∧
            Machine.cycle (engine (t.add "suspend" skip)) limits m = (.faulted fault, m₁)) := by
  obtain ⟨callers, f, ins, id, hf, hd, ho, hid⟩ := Machine.exists_of_calls h
  obtain ⟨v, hget, -⟩ := ht.get hid
  have hget' : (t.add "suspend" skip).get id = .ok { v with handler := skip } := by
    rw [VerbTable.get_add_self skip ht.position hid, hget]
    rfl
  have hskip : Machine.cycle (engine (t.add "suspend" skip)) limits m =
      Machine.settle limits callers.height f.counter (.ok none, m.advance ins.next) := by
    rw [Machine.cycle_of_decoded hf hd, ho, Machine.perform_call]
    simp only [engine, invoke, hget']
    rfl
  refine ⟨m.advance ins.next, ?_, rfl, cycle_of_suspend limits ht hf hd ho hid, ?_⟩
  · rw [Continuation.isFinished, Machine.advance_frames ins.next hf]
    rfl
  · rcases Nat.lt_or_ge limits.stackDepth m.continuation.operands.height with hover | hwithin
    · refine .inr ⟨hover, Machine.traced (.ofCause (.stackOverflow limits.stackDepth)) callers.height
        f.counter (m.advance ins.next).continuation, Machine.traced_cause .., ?_⟩
      rw [hskip, Machine.settle]
      exact if_pos hover
    · exact .inl ⟨hwithin, hskip.trans (Machine.settle_eq_next.2 ⟨rfl, hwithin⟩)⟩

/-- With `skip` in the place of `suspend` no verb suspends. -/
theorem handler_ne_suspend (ht : SoleSuspension t i) {id : VerbId} {v : Verb (Handler σ)}
    (hv : (t.add "suspend" skip).get id = .ok v) (keeps : Bool) (m : Machine (World σ)) :
    (v.handler keeps m).1 ≠ .ok .suspend := by
  by_cases hid : id.number.toInt = i
  · rw [VerbTable.get_add_self skip ht.position hid] at hv
    cases hw : t.get id with
    | error cause =>
        rw [hw] at hv
        cases hv
    | ok w =>
        rw [hw] at hv
        cases hv
        intro h
        cases h
  · rw [VerbTable.get_add_of_ne skip ht.position hid] at hv
    obtain ⟨hpos, hat⟩ := VerbTable.get_eq_ok hv
    exact ht.others _ v hat (by omega) keeps m

/-- With `skip` in the place of `suspend` no cycle suspends. -/
theorem cycle_add_skip_ne_suspended (ht : SoleSuspension t i) {m m₁ : Machine (World σ)} :
    Machine.cycle (engine (t.add "suspend" skip)) limits m ≠ (.halted .suspended, m₁) := by
  intro hc
  obtain ⟨keeps, ins, id, -, -, hinvoke⟩ := (Machine.cycle_eq_stopped (.inl ⟨rfl, rfl⟩)).1 hc
  obtain ⟨v, hv, hhandler⟩ := exists_of_invoke hinvoke
  exact handler_ne_suspend ht hv keeps _ (by rw [hhandler])

/-! ## Executing again and again -/

/-- **Resumptions.** `Resumptions verbs limits n m r m'`: executing `m`, and executing again after each of
`n` suspensions, is answered by `r` in `m'`. -/
inductive Resumptions (verbs : VerbTable (Handler σ)) (limits : Limits) :
    Nat → Machine (World σ) → Except Fault Answer → Machine (World σ) → Prop where
  | ended {fuel : Nat} {m m' : Machine (World σ)} {r : Except Fault Answer} :
      execute verbs limits fuel m = some (r, m') → Resumptions verbs limits 0 m r m'
  | again {fuel n : Nat} {m m₁ m' : Machine (World σ)} {v : Value} {r : Except Fault Answer} :
      execute verbs limits fuel m = some (.ok (.suspended v), m₁) →
      Resumptions verbs limits n m₁ r m' → Resumptions verbs limits (n + 1) m r m'

/-- The same from within an execution that has `b` restarts left. -/
inductive Resumes (verbs : VerbTable (Handler σ)) (limits : Limits) :
    Nat → Nat → Machine (World σ) → Except Fault Answer → Machine (World σ) → Prop where
  | ended {fuel b : Nat} {m m' : Machine (World σ)} {r : Except Fault Answer} :
      passes verbs limits fuel b m = some (r, m') → Resumes verbs limits 0 b m r m'
  | again {fuel n b : Nat} {m m₁ m' : Machine (World σ)} {v : Value} {r : Except Fault Answer} :
      passes verbs limits fuel b m = some (.ok (.suspended v), m₁) →
      Resumes verbs limits n limits.restarts m₁ r m' → Resumes verbs limits (n + 1) b m r m'

theorem Resumes.resumptions {n : Nat} {m m' : Machine (World σ)} {r : Except Fault Answer}
    (h : Resumes t limits n limits.restarts m r m') : Resumptions t limits n m r m' := by
  generalize hb : limits.restarts = b at h
  induction h with
  | ended h =>
      obtain ⟨fuel, h⟩ := exists_execute_iff.mpr ⟨_, hb ▸ h⟩
      exact .ended h
  | again h _ ih =>
      obtain ⟨fuel, h⟩ := exists_execute_iff.mpr ⟨_, hb ▸ h⟩
      exact .again h (ih rfl)

theorem Resumes.of_next {n b : Nat} {m m₁ m' : Machine (World σ)} {r : Except Fault Answer}
    (hc : Machine.cycle (engine t) limits m = (.next, m₁)) (h : Resumes t limits n b m₁ r m') :
    Resumes t limits n b m r m' := by
  cases h with
  | ended h => exact .ended (passes_of_next hc h)
  | again h hn => exact .again (passes_of_next hc h) hn

theorem Resumes.of_restart {n b : Nat} {m m₁ m' : Machine (World σ)} {r : Except Fault Answer}
    (hc : Machine.cycle (engine t) limits m = (.halted .restarting, m₁))
    (h : Resumes t limits n b m₁ r m') : Resumes t limits n (b + 1) m r m' := by
  cases h with
  | ended h => exact .ended (passes_of_restart hc h)
  | again h hn => exact .again (passes_of_restart hc h) hn

/-- A cycle that suspends is the last of its execution. -/
theorem passes_of_suspended {b : Nat} {m m₁ : Machine (World σ)}
    (hc : Machine.cycle (engine t) limits m = (.halted .suspended, m₁))
    (hlive : m₁.continuation.isFinished = false) :
    passes t limits 1 b m = some (.ok (.suspended m₁.continuation.result), m₁) := by
  have hs := passes_of_ends (b := b) (.suspended hc)
  rwa [suspension, if_neg (by simp [hlive])] at hs

theorem Resumes.of_suspended {n b : Nat} {m m₁ m' : Machine (World σ)} {r : Except Fault Answer}
    (hc : Machine.cycle (engine t) limits m = (.halted .suspended, m₁))
    (hlive : m₁.continuation.isFinished = false)
    (h : Resumes t limits n limits.restarts m₁ r m') : Resumes t limits (n + 1) b m r m' :=
  .again (passes_of_suspended hc hlive) h

/-! ## Cutting an execution at its suspensions -/

/-- An ending that is no exhaustion does not depend on the budget. -/
theorem Ends.rebudget {t' : VerbTable (Handler σ)} {b : Nat} {m m' : Machine (World σ)}
    {r : Except Fault Answer} (h : Ends t' limits m b r m')
    (hc : Machine.cycle (engine t) limits m = Machine.cycle (engine t') limits m)
    (hend : ∀ m₁, Machine.cycle (engine t') limits m ≠ (.halted .restarting, m₁)) (B : Nat) :
    Ends t limits m B r m' := by
  cases h with
  | completed h => exact .completed (hc.trans h)
  | suspended h => exact .suspended (hc.trans h)
  | faulted h => exact .faulted (hc.trans h)
  | exhausted h => exact absurd h (hend _)

/-- With `skip` no execution ends in a suspension. -/
theorem Ends.ne_suspended (ht : SoleSuspension t i) {b : Nat} {m m' : Machine (World σ)}
    {r : Except Fault Answer} (h : Ends (t.add "suspend" skip) limits m b r m') (v : Value) :
    r ≠ .ok (.suspended v) := by
  intro hr
  cases h with
  | suspended hc => exact cycle_add_skip_ne_suspended ht hc
  | completed hc | faulted hc | exhausted hc => cases hr

/-- **An ending in a call** of `skip` is a fault, for more operands than the limit. Where it leaves the
machine, a call of `suspend` halts. -/
theorem Ends.overfull (ht : SoleSuspension t i) {b : Nat} {m m' : Machine (World σ)}
    {r : Except Fault Answer} (h : Ends (t.add "suspend" skip) limits m b r m')
    (hcalls : m.calls false i = true) :
    limits.stackDepth < m.continuation.operands.height ∧
      m'.continuation.operands = m.continuation.operands ∧ m'.continuation.isFinished = false ∧
      Machine.cycle (engine t) limits m = (.halted .suspended, m') ∧
      ∃ fault, r = .error fault ∧ fault.cause = .stackOverflow limits.stackDepth := by
  obtain ⟨m₁, hlive, hkept, hsusp, ⟨-, hskip⟩ | ⟨hover, fault, hcause, hskip⟩⟩ :=
    cycle_suspend limits ht hcalls
  · cases h with
    | completed hc | suspended hc | faulted hc | exhausted hc =>
        rw [hskip] at hc
        cases hc
  · cases h with
    | completed hc | suspended hc | exhausted hc =>
        rw [hskip] at hc
        cases hc
    | faulted hc =>
        rw [hskip] at hc
        cases hc
        exact ⟨hover, hkept, hlive, hsusp, fault, rfl, hcause⟩

/-- **The pieces.** What an execution with `skip` comes to past some cycles, one with `suspend` comes to
as well: it is cut at the calls of `suspend` on the way, has at least as many restarts left, and after
each suspension all of them. -/
theorem Leads.resumes (ht : SoleSuspension t i) {seen : List (Machine (World σ))} {b b₁ n : Nat}
    {m m₁ m' : Machine (World σ)} {r : Except Fault Answer}
    (hl : Leads (t.add "suspend" skip) limits seen b m b₁ m₁)
    (hcall : ∀ s ∈ seen, s.calls true i = false)
    (hrest : ∀ B, b₁ ≤ B → Resumes t limits n B m₁ r m')
    (hb : b ≤ limits.restarts) {B : Nat} (hB : b ≤ B) :
    Resumes t limits (seen.countP (·.calls false i) + n) B m r m' := by
  -- A state that calls `suspend` is where the execution is cut; all other cycles are the same under
  -- both tables.
  induction hl generalizing B with
  | refl b m =>
      rw [List.countP_nil, Nat.zero_add]
      exact hrest B hB
  | @next seen b b' m m₁ m₂ hc hl ih =>
      rw [List.forall_mem_cons] at hcall
      cases hcalls : m.calls false i with
      | true =>
          obtain ⟨m₃, hlive, -, hsusp, ⟨-, hskip⟩ | ⟨-, fault, -, hskip⟩⟩ := cycle_suspend limits ht hcalls
          · rw [hskip] at hc
            cases hc
            rw [List.countP_cons_of_pos hcalls, Nat.add_right_comm]
            exact .of_suspended hsusp hlive (ih hcall.2 hrest hb hb)
          · rw [hskip] at hc
            cases hc
      | false =>
          have hsame := cycle_add_skip limits ht.position (m := m)
            (by rintro (_ | _) <;> simp [hcalls, hcall.1])
          rw [List.countP_cons_of_neg (by simp [hcalls])]
          exact .of_next (hsame ▸ hc) (ih hcall.2 hrest hb hB)
  | @restart seen b b' m m₁ m₂ hc hl ih =>
      rw [List.forall_mem_cons] at hcall
      have hquiet : m.calls false i = false := by
        cases hcalls : m.calls false i with
        | false => rfl
        | true =>
            obtain ⟨m₃, -, -, -, ⟨-, hskip⟩ | ⟨-, fault, -, hskip⟩⟩ := cycle_suspend limits ht hcalls
            · rw [hskip] at hc
              cases hc
            · rw [hskip] at hc
              cases hc
      have hsame := cycle_add_skip limits ht.position (m := m)
        (by rintro (_ | _) <;> simp [hquiet, hcall.1])
      rw [List.countP_cons_of_neg (by simp [hquiet])]
      -- The pieces never have fewer restarts left than the uncut execution.
      obtain ⟨B, rfl⟩ : ∃ n, B = n + 1 := ⟨B - 1, by omega⟩
      exact .of_restart (hsame ▸ hc) (ih hcall.2 hrest (by omega) (by omega))

/-! ## The whole execution -/

/-- **Too many operands** were left by a restart, if there were not too many at first. -/
theorem Leads.exists_overfull {seen : List (Machine (World σ))} {b b₁ : Nat} {m m₁ : Machine (World σ)}
    (hl : Leads t limits seen b m b₁ m₁)
    (hm : m.continuation.operands.height ≤ limits.stackDepth)
    (hover : limits.stackDepth < m₁.continuation.operands.height) :
    ∃ s ∈ seen, s.restarts (engine t) limits = true ∧
      limits.stackDepth < (Machine.cycle (engine t) limits s).2.continuation.operands.height := by
  induction hl with
  | refl => exact absurd hm (Nat.not_le.mpr hover)
  | next hc _ ih =>
      obtain ⟨s, hs, hleft⟩ := ih (Machine.within_of_cycle_next hc) hover
      exact ⟨s, List.mem_cons_of_mem _ hs, hleft⟩
  | @restart _ _ _ m m₁ _ hc _ ih =>
      rcases Nat.lt_or_ge limits.stackDepth m₁.continuation.operands.height with hleft | hkept
      · refine ⟨m, List.mem_cons_self, Machine.restarts_of_cycle hc, ?_⟩
        rw [hc]
        exact hleft
      · obtain ⟨s, hs, hleft⟩ := ih hkept hover
        exact ⟨s, List.mem_cons_of_mem _ hs, hleft⟩

/-- **The budget** pays for the restarts on the way. -/
theorem Leads.budget {seen : List (Machine (World σ))} {b b₁ : Nat} {m m₁ : Machine (World σ)}
    (hl : Leads t limits seen b m b₁ m₁) :
    b₁ + seen.countP (·.restarts (engine t) limits) = b := by
  induction hl with
  | refl b m => rfl
  | next hc _ ih =>
      rw [List.countP_cons_of_neg (by simp [Machine.restarts, hc])]
      exact ih
  | restart hc _ ih =>
      simp only [List.countP_cons, Machine.restarts_of_cycle hc, if_true]
      omega

/-- **The last cycle** of an execution asks for no restart, if no more are asked for than are honoured. -/
theorem Leads.ends_unrestarted {seen : List (Machine (World σ))} {b b₁ : Nat} {m m₁ m' m₂ : Machine (World σ)}
    {r : Except Fault Answer} (hl : Leads t limits seen b m b₁ m₁) (he : Ends t limits m₁ b₁ r m')
    (hcount : (seen ++ [m₁]).countP (·.restarts (engine t) limits) ≤ b) :
    Machine.cycle (engine t) limits m₁ ≠ (.halted .restarting, m₂) := by
  intro hc
  have hbudget := hl.budget
  rw [List.countP_append, List.countP_singleton, if_pos (Machine.restarts_of_cycle hc)] at hcount
  cases he with
  | completed hlast | suspended hlast | faulted hlast =>
      rw [hlast] at hc
      cases hc
  | exhausted hlast => omega

/-- **Nothing is left to execute,** with `suspend` or without. -/
theorem resumptions_of_isFinished {fuel : Nat} {m m' : Machine (World σ)} {r : Except Fault Answer}
    (hf : m.continuation.isFinished = true)
    (h : execute (t.add "suspend" skip) limits fuel m = some (r, m')) :
    (∀ v, r ≠ .ok (.suspended v)) ∧ Resumptions t limits
      ((visited (t.add "suspend" skip) limits fuel limits.restarts m).countP (·.calls false i)) m r m' := by
  have hnone : ∀ s ∈ visited (t.add "suspend" skip) limits fuel limits.restarts m,
      ¬ s.calls false i = true := by
    intro s hs
    rw [eq_of_mem_visited hf hs, Machine.not_calls_of_empty false i (Stack.isEmpty_iff.mp hf)]
    exact Bool.false_ne_true
  have hnow : execute t limits 0 m = some (.ok (.completed .void), m) := by
    rw [execute, if_pos hf]
  rw [execute, if_pos hf] at h
  cases h
  rw [List.countP_eq_zero.mpr hnone]
  refine ⟨?_, .ended hnow⟩
  intro v hv
  cases hv

/-- **Transparent suspension** of what is executed from `m`. If `suspend` does nothing, is only called where
its result is dropped, and no more restarts are asked for than are honoured, then executing with `suspend`
again and again comes to the same: there are as many suspensions as `suspend` was called, and what comes at
the end is what came without. -/
def SuspendsTransparently (t : VerbTable (Handler σ)) (i : Nat) (limits : Limits)
    (m : Machine (World σ)) : Prop :=
  ∀ fuel seen r m', execute (t.add "suspend" skip) limits fuel m = some (r, m') →
    visited (t.add "suspend" skip) limits fuel limits.restarts m = seen →
    (∀ s ∈ seen, s.calls true i = false) →
    seen.countP (·.restarts (engine (t.add "suspend" skip)) limits) ≤ limits.restarts →
    (∀ v, r ≠ .ok (.suspended v)) ∧ Resumptions t limits (seen.countP (·.calls false i)) m r m'

/-- **Too many operands at the end.** Without `suspend`, the execution of `m` through the states `seen` faults
at a call of it, for more operands than the limit; a verb left them there that asked for a restart. With
`suspend`, the last suspension leaves the same state, and the continuation can be resumed. -/
structure EndsOverfull (t : VerbTable (Handler σ)) (i : Nat) (limits : Limits)
    (seen : List (Machine (World σ))) (m : Machine (World σ)) (r : Except Fault Answer)
    (m' : Machine (World σ)) : Prop where
  fault : ∃ fault, r = .error fault ∧ fault.cause = .stackOverflow limits.stackDepth
  operands : limits.stackDepth < m'.continuation.operands.height
  restart : ∃ s ∈ seen, s.restarts (engine (t.add "suspend" skip)) limits = true ∧
    limits.stackDepth <
      (Machine.cycle (engine (t.add "suspend" skip)) limits s).2.continuation.operands.height
  suspensions : ∃ n v, seen.countP (·.calls false i) = n + 1 ∧
    Resumptions t limits n m (.ok (.suspended v)) m'

/-- **Suspension is transparent,** but for operands that a restart left. An execution in which `suspend` does
nothing is told by executing with `suspend` again and again: there are as many suspensions as `suspend` was
called, and what comes at the end is the same. The only other way is that it faults at its last call of
`suspend`, where a restart had left more operands than the limit. -/
theorem resumptions_or_overfull (ht : SoleSuspension t i) {fuel : Nat} {seen : List (Machine (World σ))}
    {m m' : Machine (World σ)} {r : Except Fault Answer}
    (hm : m.continuation.operands.height ≤ limits.stackDepth)
    (h : execute (t.add "suspend" skip) limits fuel m = some (r, m'))
    (hv : visited (t.add "suspend" skip) limits fuel limits.restarts m = seen)
    (hcall : ∀ s ∈ seen, s.calls true i = false)
    (hcount : seen.countP (·.restarts (engine (t.add "suspend" skip)) limits) ≤ limits.restarts) :
    ((∀ v, r ≠ .ok (.suspended v)) ∧
        Resumptions t limits (seen.countP (·.calls false i)) m r m') ∨
      EndsOverfull t i limits seen m r m' := by
  subst hv
  by_cases hf : m.continuation.isFinished = true
  · exact .inl (resumptions_of_isFinished hf h)
  · rw [execute, if_neg hf] at h
    obtain ⟨way, b₁, m₁, hl, he, hv⟩ := leads_of_passes h
    rw [hv] at hcall hcount ⊢
    obtain ⟨hcall, hlast⟩ := List.forall_mem_append.mp hcall
    have hpieces {n : Nat} {r : Except Fault Answer}
        (hrest : ∀ B, b₁ ≤ B → Resumes t limits n B m₁ r m') :
        Resumptions t limits (way.countP (·.calls false i) + n) m r m' :=
      (hl.resumes ht hcall hrest (Nat.le_refl _) (Nat.le_refl _)).resumptions
    have hcalled : (way ++ [m₁]).countP (·.calls false i) =
        way.countP (·.calls false i) + if m₁.calls false i then 1 else 0 := by
      rw [List.countP_append, List.countP_singleton]
    cases hcalls : m₁.calls false i with
    | false =>
        have hsame := cycle_add_skip limits ht.position (m := m₁)
          (by rintro (_ | _) <;> simp [hcalls, hlast m₁])
        rw [hcalled, hcalls]
        refine .inl ⟨he.ne_suspended ht, hpieces ?_⟩
        intro B _
        exact .ended (passes_of_ends (he.rebudget hsame.symm (fun _ => hl.ends_unrestarted he hcount) B))
    | true =>
        obtain ⟨hover, hkept, hlive, hsusp, hfault⟩ := he.overfull ht hcalls
        obtain ⟨s, hs, hleft⟩ := hl.exists_overfull hm hover
        rw [hcalls] at hcalled
        exact .inr ⟨hfault, hkept ▸ hover, ⟨s, List.mem_append_left _ hs, hleft⟩, _, _, hcalled,
          hpieces fun B _ => .ended (passes_of_suspended hsusp hlive)⟩

/-- A script that calls `suspend` in a nested call. -/
def pausing : Script :=
  .ofProgram "pausing" (.ofBytes ([.branch .link 6, .ret, .call false ⟨0⟩, .ret].flatMap Opcode.encode))

/-- The table whose only verb is `suspend`. -/
def suspendOnly : VerbTable (Handler Unit) := VerbTable.empty.add "suspend" suspend

theorem suspendOnly_sole : SoleSuspension suspendOnly 0 where
  position := by decide
  handler := by
    intro v hv
    cases hv
    rfl
  others := by
    intro j v hv hj
    obtain ⟨j, rfl⟩ := Nat.exists_eq_succ_of_ne_zero hj
    cases hv

def pausingStart : Machine (World Unit) := ⟨.ofFrame (.enter pausing 0), ⟨.empty, ()⟩⟩

/-- It suspends once, in the nested call. -/
theorem resumptions_or_overfull_pausing :
    Resumptions suspendOnly .standard 1 pausingStart (.ok (.completed .void)) ⟨.empty, ⟨.empty, ()⟩⟩ := by
  have hrun : execute (suspendOnly.add "suspend" skip) .standard 5 pausingStart =
      some (.ok (.completed .void), ⟨.empty, ⟨.empty, ()⟩⟩) := rfl
  rcases resumptions_or_overfull suspendOnly_sole (by decide) hrun rfl (by decide) (by decide) with
    ⟨-, hresumed⟩ | hover
  · exact hresumed
  · obtain ⟨fault, hfault, -⟩ := hover.fault
    cases hfault

/-! ## A restart that leaves too many operands -/

/-- Room for one operand. -/
def oneOperand : Limits := { Limits.standard with stackDepth := 1 }

/-- A table in which a second verb pushes two operands and asks for a restart. -/
def overfilling : VerbTable (Handler Unit) :=
  suspendOnly.add "overfill" fun _ m =>
    (.ok .restart, { m with continuation := { m.continuation with
      operands := (m.continuation.operands.push (.int 7)).push (.int 8) } })

theorem overfilling_sole : SoleSuspension overfilling 0 where
  position := by decide
  handler := by
    intro v hv
    cases hv
    rfl
  others := by
    rintro (_ | _ | j) v hv hj keeps m
    · exact absurd rfl hj
    · cases hv
      exact nofun
    · cases hv

/-- A script that calls this verb, then `suspend`, and returns. -/
def overfilled : Script :=
  .ofProgram "overfilled"
    (.ofBytes ([.call false ⟨1⟩, .call false ⟨0⟩, .ret].flatMap Opcode.encode))

def overfilledAt (counter : Nat) (operands : Stack Value) : Machine (World Unit) :=
  ⟨{ Continuation.ofFrame (.enter overfilled counter) with operands }, ⟨.empty, ()⟩⟩

/-- What the verb leaves. -/
def twoOperands : Stack Value := (Stack.empty.push (.int 7)).push (.int 8)

/-- **Suspension shows** two operands where there is room for one. The execution faults at its call of
`suspend` if this does nothing. If it suspends, the operands are never counted: the execution is resumed, and
completes with the upper one. -/
theorem not_suspendsTransparently_overfilling :
    SoleSuspension overfilling 0 ∧
      (overfilledAt 0 .empty).continuation.operands.height ≤ oneOperand.stackDepth ∧
      execute (overfilling.add "suspend" skip) oneOperand 3 (overfilledAt 0 .empty) =
        some (.error ⟨.stackOverflow 1, [⟨"overfilled", 5⟩]⟩, overfilledAt 10 twoOperands) ∧
      Resumptions overfilling oneOperand 1 (overfilledAt 0 .empty) (.ok (.completed (.int 8)))
        ⟨⟨.empty, twoOperands⟩, ⟨.empty, ()⟩⟩ ∧
      ¬ SuspendsTransparently overfilling 0 oneOperand (overfilledAt 0 .empty) := by
  have hfault : execute (overfilling.add "suspend" skip) oneOperand 3 (overfilledAt 0 .empty) =
      some (.error ⟨.stackOverflow 1, [⟨"overfilled", 5⟩]⟩, overfilledAt 10 twoOperands) := rfl
  have hpause : execute overfilling oneOperand 3 (overfilledAt 0 .empty) =
      some (.ok (.suspended .void), overfilledAt 10 twoOperands) := rfl
  have hdone : execute overfilling oneOperand 3 (overfilledAt 10 twoOperands) =
      some (.ok (.completed (.int 8)), ⟨⟨.empty, twoOperands⟩, ⟨.empty, ()⟩⟩) := rfl
  refine ⟨overfilling_sole, by decide, hfault, .again hpause (.ended hdone), ?_⟩
  intro htransparent
  obtain ⟨-, hresumed⟩ := htransparent 3 _ _ _ hfault rfl (by decide) (by decide)
  cases hresumed with
  | again hpause' hrest =>
      obtain ⟨-, rfl⟩ := execute_unique hpause hpause'
      cases hrest with
      | ended hdone' =>
          obtain ⟨hcontra, -⟩ := execute_unique hdone hdone'
          cases hcontra

end Resumable
end CogMachine
