import CogMachine.Proofs.Suspension

/-!
# Restarts are invisible

A verb that asks for a restart ends the pass, and the next pass goes on from the continuation that it
left. So it does what it would have done by returning, and a table of verbs is compared here with the
same table in which every restart is a return of void (`steadied`).

- `CallRestarts` is a restart, told by the call and by what the verb left; `Raises` numbers the
  restarts of an execution, and a table that `NeverRestarts` has none (`cycle_ne_restarting`).
- `cycle_steadied_of_ne` and `cycle_steadied_of_callRestarts`: a cycle is the same with both tables, or
  it restarts with one in the state in which it goes on with the other.
- `Leads.steadied` and `Leads.unsteadied` carry an execution from one table to the other.
- `execute_steadied` compares whole executions, and says what the restart past the last one does.

A call that keeps its result would get the void as an operand, and a restart skips the check of the
operands that a return is followed by: a restart by such a call, or with too many operands, is visible.
-/

namespace CogMachine.Resumable

variable {σ : Type} {t : VerbTable (Handler σ)} {limits : Limits}

/-! ## The table without restarts -/

/-- What a handler answers, with void for a restart. -/
def settled : Except Fault Flow × Machine (World σ) → Except Fault Flow × Machine (World σ)
  | (.ok .restart, m) => (.ok (.value .void), m)
  | r => r

/-- **Steadied.** The table whose handlers change what they did, and return void where they restarted. -/
def steadied (t : VerbTable (Handler σ)) : VerbTable (Handler σ) :=
  ⟨t.verbs.map fun v => { v with handler := fun keeps m => settled (v.handler keeps m) }⟩

theorem settled_of_ne {r : Except Fault Flow × Machine (World σ)} (h : r.1 ≠ .ok .restart) :
    settled r = r := by
  rcases r with ⟨_ | _ | _ | _, m⟩
  · rfl
  · rfl
  · rfl
  · exact absurd rfl h

theorem settled_ne_restart (r : Except Fault Flow × Machine (World σ)) :
    (settled r).1 ≠ .ok .restart := by
  rcases r with ⟨_ | _ | _ | _, m⟩ <;> simp [settled]

theorem invoke_steadied (t : VerbTable (Handler σ)) (id : VerbId) (keeps : Bool)
    (m : Machine (World σ)) :
    (engine (steadied t)).invoke id keeps m = settled ((engine t).invoke id keeps m) := by
  simp only [engine, invoke, VerbTable.get_eq, steadied, List.getElem?_map]
  by_cases hneg : id.number.toInt < 0
  · simp only [if_pos hneg]
    rfl
  · simp only [if_neg hneg]
    cases t.verbs[id.number.toInt.toNat]? <;> rfl

/-! ## Restarts -/

/-- **A restart:** a call that is answered by asking for one, and leaves `m'`. -/
def CallRestarts (t : VerbTable (Handler σ)) (keeps : Bool) (m m' : Machine (World σ)) : Prop :=
  Machine.CallAnswers (engine t) keeps (.ok .restart) m m'

/-- **The cycles that restart** are those whose call does. -/
theorem cycle_eq_restarting {m m' : Machine (World σ)} :
    Machine.cycle (engine t) limits m = (.halted .restarting, m') ↔
      ∃ keeps, CallRestarts t keeps m m' :=
  Machine.cycle_eq_stopped (.inr ⟨rfl, rfl⟩)

/-- A table without restarts. -/
def NeverRestarts (t : VerbTable (Handler σ)) : Prop :=
  ∀ v ∈ t.verbs, ∀ keeps m, (v.handler keeps m).1 ≠ .ok .restart

theorem cycle_ne_restarting (hr : NeverRestarts t) {m m' : Machine (World σ)} :
    Machine.cycle (engine t) limits m ≠ (.halted .restarting, m') := by
  intro hc
  obtain ⟨keeps, ins, id, -, -, hinvoke⟩ := cycle_eq_restarting.1 hc
  obtain ⟨v, hv, hhandler⟩ := exists_of_invoke hinvoke
  apply hr v (VerbTable.mem_of_get hv) keeps (m.advance ins.next)
  rw [hhandler]

/-- **Numbered restarts.** The restart number `n` of an execution of `m` is raised by a call that keeps
its result or does not, and leaves `m'`. -/
def Raises (t : VerbTable (Handler σ)) (limits : Limits) (m : Machine (World σ)) (n : Nat)
    (keeps : Bool) (m' : Machine (World σ)) : Prop :=
  ∃ seen b s, Leads t limits seen limits.restarts m b s ∧
    seen.countP (·.restarts (engine t) limits) + 1 = n ∧ CallRestarts t keeps s m'

/-- **Invisible restarts:** no more than are honoured, each by a call that drops its result and leaves
the operands within their limit. -/
def RestartsInvisibly (t : VerbTable (Handler σ)) (limits : Limits) (m : Machine (World σ)) : Prop :=
  ∀ n keeps m', Raises t limits m n keeps m' →
    n ≤ limits.restarts ∧ keeps = false ∧ m'.continuation.operands.height ≤ limits.stackDepth

/-! ## Cycles of the two engines -/

/-- A cycle that does not restart is the same with either table. -/
theorem cycle_steadied_of_ne {m : Machine (World σ)}
    (h : ∀ m', Machine.cycle (engine t) limits m ≠ (.halted .restarting, m')) :
    Machine.cycle (engine (steadied t)) limits m = Machine.cycle (engine t) limits m := by
  rcases Machine.cycle_cases (engine t) limits m with
    ⟨hf, hc⟩ | ⟨callers, f, cause, hf, hd, hc⟩ | ⟨callers, f, ins, hf, hd, hc⟩
  · rw [hc, Machine.cycle_of_empty hf]
  · rw [hc, Machine.cycle_of_malformed hf hd]
  · rw [hc, Machine.cycle_of_decoded hf hd]
    congr 1
    apply perform_congr
    intro keeps id ho
    have hne : ((engine t).invoke id keeps (m.advance ins.next)).1 ≠ .ok .restart := by
      intro hinv
      apply h ((engine t).invoke id keeps (m.advance ins.next)).2
      apply cycle_eq_restarting.mpr
      exact ⟨keeps, ins, id, Machine.instruction?_of_decode hf hd, ho, Prod.ext hinv rfl⟩
    rw [invoke_steadied, settled_of_ne hne]

/-- Where a call without a result restarts within the limit, the steadied one goes on. -/
theorem cycle_steadied_of_callRestarts {m m' : Machine (World σ)} (h : CallRestarts t false m m')
    (hm : m'.continuation.operands.height ≤ limits.stackDepth) :
    Machine.cycle (engine (steadied t)) limits m = (.next, m') := by
  obtain ⟨callers, f, ins, id, hf, hd, ho, hinv⟩ := h.decoded
  have hinv' : (engine (steadied t)).invoke id false (m.advance ins.next) =
      (.ok (.value .void), m') := by
    rw [invoke_steadied, hinv]
    rfl
  rw [Machine.cycle_of_decoded hf hd, Machine.settle_eq_next, ho, Machine.perform_call, hinv']
  exact ⟨rfl, hm⟩

/-- With the steadied table no cycle restarts. -/
theorem cycle_steadied_ne_restarting {m m' : Machine (World σ)} :
    Machine.cycle (engine (steadied t)) limits m ≠ (.halted .restarting, m') := by
  intro hc
  obtain ⟨keeps, ins, id, -, -, hinv⟩ := cycle_eq_restarting.mp hc
  rw [invoke_steadied] at hinv
  exact settled_ne_restart _ (congrArg Prod.fst hinv)

/-! ## Executions -/

theorem Leads.before {seen : List (Machine (World σ))} {b b' : Nat} {m m' s : Machine (World σ)}
    (hl : Leads t limits seen b m b' m') (hs : s ∈ seen) :
    ∃ seen₁ b₁, Leads t limits seen₁ b m b₁ s := by
  induction hl with
  | refl b m => cases hs
  | @next seen b b' m m₁ m' hc hl ih =>
      rcases List.mem_cons.mp hs with rfl | hs
      · exact ⟨[], b, .refl b s⟩
      · obtain ⟨seen₁, b₁, h⟩ := ih hs
        exact ⟨m :: seen₁, b₁, .next hc h⟩
  | @restart seen b b' m m₁ m' hc hl ih =>
      rcases List.mem_cons.mp hs with rfl | hs
      · exact ⟨[], b + 1, .refl (b + 1) s⟩
      · obtain ⟨seen₁, b₁, h⟩ := ih hs
        exact ⟨m :: seen₁, b₁, .restart hc h⟩

/-- A restart in a state that an execution comes to has a number. -/
theorem raises_of_leads {seen : List (Machine (World σ))} {b : Nat} {keeps : Bool}
    {m s m' : Machine (World σ)} (hl : Leads t limits seen limits.restarts m b s)
    (h : CallRestarts t keeps s m') : Raises t limits m (limits.restarts - b + 1) keeps m' := by
  have hbudget := hl.budget
  exact ⟨seen, b, s, hl, by omega, h⟩

/-- **From the table to the steadied one.** What leads on with restarts leads on without. -/
theorem Leads.steadied {seen : List (Machine (World σ))} {b b' : Nat} {m m' : Machine (World σ)}
    (hl : Leads t limits seen b m b' m')
    (h : ∀ s ∈ seen, ∀ keeps s', CallRestarts t keeps s s' →
      keeps = false ∧ s'.continuation.operands.height ≤ limits.stackDepth) (B : Nat) :
    Leads (steadied t) limits seen B m B m' := by
  induction hl with
  | refl b m => exact .refl B m
  | @next seen b b' m m₁ m' hc hl ih =>
      rw [List.forall_mem_cons] at h
      have hsame : Machine.cycle (engine (Resumable.steadied t)) limits m = (.next, m₁) := by
        rw [cycle_steadied_of_ne (by simp [hc]), hc]
      exact .next hsame (ih h.2)
  | @restart seen b b' m m₁ m' hc hl ih =>
      rw [List.forall_mem_cons] at h
      obtain ⟨keeps, hr⟩ := cycle_eq_restarting.mp hc
      obtain ⟨rfl, hwithin⟩ := h.1 keeps m₁ hr
      exact .next (cycle_steadied_of_callRestarts hr hwithin) (ih h.2)

/-- **From the steadied table back.** An execution that has led to `m` leads on as the steadied one
does: each cycle goes on alike, or restarts and has a restart left to do so. -/
theorem Leads.unsteadied {seen seen' : List (Machine (World σ))} {b B B' : Nat}
    {m₀ m m' : Machine (World σ)} (hinv : RestartsInvisibly t limits m₀)
    (hl : Leads t limits seen limits.restarts m₀ b m)
    (hl' : Leads (Resumable.steadied t) limits seen' B m B' m') :
    ∃ b', Leads t limits (seen ++ seen') limits.restarts m₀ b' m' := by
  induction hl' generalizing seen b with
  | refl B m =>
      rw [List.append_nil]
      exact ⟨b, hl⟩
  | @next seen' B B' m m₁ m' hc hl' ih =>
      rw [List.append_cons]
      by_cases hr : ∃ m₂, Machine.cycle (engine t) limits m = (.halted .restarting, m₂)
      · obtain ⟨m₂, hc₂⟩ := hr
        obtain ⟨keeps, hr⟩ := cycle_eq_restarting.mp hc₂
        obtain ⟨hn, rfl, hwithin⟩ := hinv _ _ _ (raises_of_leads hl hr)
        rw [cycle_steadied_of_callRestarts hr hwithin] at hc
        cases hc
        have hbudget := hl.budget
        obtain ⟨b, rfl⟩ : ∃ n, b = n + 1 := ⟨b - 1, by omega⟩
        exact ih (hl.trans (.restart hc₂ (.refl b m₁)))
      · rw [cycle_steadied_of_ne (by simpa using hr)] at hc
        exact ih (hl.trans (.next hc (.refl b m₁)))
  | restart hc _ _ => exact absurd hc cycle_steadied_ne_restarting

/-- An execution that does not end in a restart ends alike with either table. -/
theorem Ends.of_cycle_eq {t t' : VerbTable (Handler σ)} {m m' : Machine (World σ)} {b : Nat}
    {r : Except Fault Answer} (he : Ends t limits m b r m')
    (hsame : Machine.cycle (engine t') limits m = Machine.cycle (engine t) limits m)
    (hne : ∀ m₁, Machine.cycle (engine t) limits m ≠ (.halted .restarting, m₁)) (B : Nat) :
    Ends t' limits m B r m' := by
  cases he with
  | completed hc => exact .completed (hsame.trans hc)
  | suspended hc => exact .suspended (hsame.trans hc)
  | faulted hc => exact .faulted (hsame.trans hc)
  | exhausted hc => exact absurd hc (hne m')

theorem execute_steadied_of_execute {m m' : Machine (World σ)} {r : Except Fault Answer}
    (hinv : RestartsInvisibly t limits m) (h : ∃ fuel, execute t limits fuel m = some (r, m')) :
    ∃ fuel, execute (steadied t) limits fuel m = some (r, m') := by
  obtain ⟨fuel, h⟩ := exists_execute_iff.mp h
  obtain ⟨seen, b, m₁, hl, he, -⟩ := leads_of_passes h
  have hseen : ∀ s ∈ seen, ∀ keeps s', CallRestarts t keeps s s' →
      keeps = false ∧ s'.continuation.operands.height ≤ limits.stackDepth := by
    intro s hs keeps s' hr
    obtain ⟨seen₁, b₁, hl₁⟩ := hl.before hs
    exact (hinv _ _ _ (raises_of_leads hl₁ hr)).2
  -- the execution had a restart left for each that it raised, so its last cycle raises none
  have hlast : ∀ m₂, Machine.cycle (engine t) limits m₁ ≠ (.halted .restarting, m₂) := by
    intro m₂ hc
    obtain ⟨keeps, hr⟩ := cycle_eq_restarting.mp hc
    have hn := (hinv _ _ _ (raises_of_leads hl hr)).1
    cases he with
    | completed hc' | suspended hc' | faulted hc' =>
        rw [hc'] at hc
        cases hc
    | exhausted hc' => omega
  have hends := he.of_cycle_eq (cycle_steadied_of_ne hlast) hlast limits.restarts
  exact exists_execute_iff.mpr (exists_passes_of_leads (hl.steadied hseen limits.restarts) hends)

theorem execute_of_execute_steadied {m m' : Machine (World σ)} {r : Except Fault Answer}
    (hinv : RestartsInvisibly t limits m)
    (h : ∃ fuel, execute (steadied t) limits fuel m = some (r, m')) :
    ∃ fuel, execute t limits fuel m = some (r, m') := by
  obtain ⟨fuel, h⟩ := exists_execute_iff.mp h
  obtain ⟨seen, B, m₁, hl, he, -⟩ := leads_of_passes h
  obtain ⟨b, hl'⟩ := Leads.unsteadied hinv (.refl limits.restarts m) hl
  rw [List.nil_append] at hl'
  -- a restart here would go on with the steadied table, which ends
  have hlast : ∀ m₂, Machine.cycle (engine t) limits m₁ ≠ (.halted .restarting, m₂) := by
    intro m₂ hc
    obtain ⟨keeps, hr⟩ := cycle_eq_restarting.mp hc
    obtain ⟨-, rfl, hwithin⟩ := hinv _ _ _ (raises_of_leads hl' hr)
    have hnext := cycle_steadied_of_callRestarts hr hwithin
    cases he with
    | completed hc' | suspended hc' | faulted hc' | exhausted hc' =>
        rw [hc'] at hnext
        cases hnext
  have hsame := cycle_steadied_of_ne hlast
  have hends := he.of_cycle_eq hsame.symm (fun _ => cycle_steadied_ne_restarting) b
  exact exists_execute_iff.mpr (exists_passes_of_leads hl' hends)

/-- **Restarts are invisible.** An execution whose restarts are within the budget, each by a call that
drops its result and leaves the operands within their limit, ends as one in which all of them are
returns of void, and ends if that does. The restart past the last one honoured fails, with the
calls as the verb left them. -/
theorem execute_steadied (t : VerbTable (Handler σ)) (limits : Limits) (m : Machine (World σ)) :
    (RestartsInvisibly t limits m → ∀ r m',
      (∃ fuel, execute t limits fuel m = some (r, m')) ↔
        ∃ fuel, execute (steadied t) limits fuel m = some (r, m')) ∧
    (∀ keeps m', Raises t limits m (limits.restarts + 1) keeps m' →
      ∃ fuel, execute t limits fuel m =
        some (.error ⟨.restartLimit limits.restarts, m'.continuation.trace⟩, m')) := by
  constructor
  · intro hinv r m'
    constructor
    · exact execute_steadied_of_execute hinv
    · exact execute_of_execute_steadied hinv
  · rintro keeps m' ⟨seen, b, s, hl, hn, hr⟩
    have hbudget := hl.budget
    obtain rfl : b = 0 := by omega
    have hends := Ends.exhausted (cycle_eq_restarting.mpr ⟨keeps, hr⟩ :
      Machine.cycle (engine t) limits s = (.halted .restarting, m'))
    exact exists_execute_iff.mpr (exists_passes_of_leads hl hends)

/-- A script that calls its only verb and returns. -/
def entering : Script :=
  .ofProgram "entering" (.ofBytes ([.call false ⟨0⟩, .ret].flatMap Opcode.encode))

/-- A table whose verb enters a frame at the return and asks for a restart. -/
def enterOnly : VerbTable (Handler Unit) :=
  VerbTable.empty.add "enter" fun _ m =>
    (.ok .restart, { m with continuation := m.continuation.pushFrame (.enter entering 5) })

def enteringStart : Machine (World Unit) := ⟨.ofFrame (.enter entering 0), ⟨.empty, ()⟩⟩

/-- What the verb leaves: the calling frame past the call, and the one that it entered. -/
def enteringLeft : Machine (World Unit) :=
  ⟨(Continuation.ofFrame (.enter entering 5)).pushFrame (.enter entering 5), ⟨.empty, ()⟩⟩

theorem callRestarts_entering : CallRestarts enterOnly false enteringStart enteringLeft :=
  ⟨⟨.call false ⟨0⟩, 0, 5⟩, ⟨0⟩, rfl, rfl, rfl⟩

/-- The only restart of the execution is that of its first cycle. -/
theorem entering_invisibly : RestartsInvisibly enterOnly .standard enteringStart := by
  have hfirst : Machine.cycle (engine enterOnly) .standard enteringStart =
      (.halted .restarting, enteringLeft) := cycle_eq_restarting.mpr ⟨false, callRestarts_entering⟩
  rintro n keeps m' ⟨seen, b, s, hl, rfl, hr⟩
  cases hl with
  | refl =>
      obtain ⟨ins, id, hins, ho, hinv⟩ := hr
      cases hins
      cases ho
      cases hinv
      exact ⟨by decide, rfl, by decide⟩
  | next hc _ =>
      rw [hfirst] at hc
      cases hc
  | restart hc hl =>
      rw [hfirst] at hc
      cases hc
      -- both frames only return from here on
      obtain ⟨ins, id, hins, ho, -⟩ := hr
      cases hl with
      | refl =>
          cases hins
          cases ho
      | restart hc _ => cases hc
      | next hc hl =>
          cases hc
          cases hl with
          | refl =>
              cases hins
              cases ho
          | next hc _ | restart hc _ => cases hc

theorem execute_steadied_entering :
    (∃ fuel, execute (steadied enterOnly) .standard fuel enteringStart =
      some (.ok (.completed .void), ⟨.empty, ⟨.empty, ()⟩⟩)) ∧
    ∃ fuel, execute enterOnly { Limits.standard with restarts := 0 } fuel enteringStart =
      some (.error ⟨.restartLimit 0, [⟨"entering", 5⟩, ⟨"entering", 5⟩]⟩, enteringLeft) := by
  constructor
  · exact ((execute_steadied enterOnly .standard enteringStart).1 entering_invisibly _ _).mp ⟨5, rfl⟩
  · exact (execute_steadied enterOnly { Limits.standard with restarts := 0 } enteringStart).2 false
      enteringLeft ⟨[], 0, enteringStart, .refl 0 enteringStart, rfl, callRestarts_entering⟩

end CogMachine.Resumable
