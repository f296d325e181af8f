import CogMachine.Machine.Transient
import CogMachine.Proofs.Execution
import CogMachine.Proofs.Frames
import CogMachine.Proofs.Simulation

/-!
# Engines in lockstep

Two engines often go through the same continuations and differ in what they keep besides: they have other
limits, more verbs, or only a part of the memories. A comparison says what holds of the frames and of the
rest, how the rest of the second engine is seen in that of the first, and to which faults the first may be
lost.

- `Comparison.Lawful` lists what has to be shown of the engines: loads, stores, verbs and limits.
- `Comparison.cycle`, `Comparison.run`, `Comparison.execute`: the second engine tells what the first does,
  in the view, unless the first is lost. The fuel is the same on both sides, so divergence agrees too.
-/

namespace CogMachine

/-! ## Comparisons -/

/-- **A comparison** of two engines over the same continuation. -/
structure Comparison (S S' : Type) where
  /-- What holds of every frame. -/
  frame : Frame → Prop := fun _ => True
  /-- What holds of the rest. -/
  rest : S → Prop := fun _ => True
  /-- What the second engine keeps where the first keeps the rest. -/
  view : S → S'
  /-- Faults of the first engine that the second need not raise. -/
  lost : Fault.Cause → Prop := fun _ => False

/-- **A guard** of the first engine is as tight as that of the second, or it is tighter and may be lost. -/
def Guards (n n' : Nat) (lost : Prop) : Prop := n ≤ n' ∧ (n = n' ∨ lost)

theorem Guards.refl (n : Nat) (lost : Prop) : Guards n n lost := ⟨Nat.le_refl n, .inl rfl⟩

namespace Comparison

variable {S S' α β : Type} {c : Comparison S S'} {e : Engine S} {e' : Engine S'}
variable {limits limits' : Limits} {m : Machine S}

def Holds (c : Comparison S S') (m : Machine S) : Prop :=
  m.continuation.Every c.frame ∧ c.rest m.rest

def state (c : Comparison S S') (m : Machine S) : Machine S' := ⟨m.continuation, c.view m.rest⟩

def simulation (c : Comparison S S') : Simulation S S' where
  invariant := c.Holds
  state := c.state
  lost f := c.lost f.cause
  excess _ := False

/-- **What has to be shown** of the engines. The instructions need no more. -/
structure Lawful (c : Comparison S S') (e : Engine S) (e' : Engine S') (limits limits' : Limits) :
    Prop where
  inherited : Inherited c.frame
  load : ∀ s f address, c.rest s → c.frame f → e'.load (c.view s) f address = e.load s f address
  store : ∀ s f address v, c.rest s → c.frame f → c.rest (e.store f address v s).2 ∧
    e'.store f address v (c.view s) = ((e.store f address v s).1, c.view (e.store f address v s).2)
  invoke : ∀ keeps verb, c.simulation.Carries id (e.invoke verb keeps) (e'.invoke verb keeps)
  depth : Guards limits.callDepth limits'.callDepth (c.lost (.callStackOverflow limits.callDepth))
  height : Guards limits.stackDepth limits'.stackDepth (c.lost (.stackOverflow limits.stackDepth))

/-- An action carries over that does the same in the view. -/
theorem carries_of_eq {a : Action (Machine S) α} {a' : Action (Machine S') α}
    (h : ∀ m, c.Holds m → c.Holds (a m).2 ∧ a' (c.state m) = ((a m).1, c.state (a m).2)) :
    c.simulation.Carries id a a' := by
  intro m hm
  obtain ⟨hholds, heq⟩ := h m hm
  refine .inl ⟨hholds, heq.trans ?_⟩
  cases (a m).1 <;> rfl

/-- What carries over is lost or the same in the view. -/
theorem eq_of_carries {a : Action (Machine S) α} {a' : Action (Machine S') α}
    (h : c.simulation.Carries id a a') (hm : c.Holds m) :
    (∃ f t, a m = (.error f, t) ∧ c.lost f.cause) ∨
      (c.Holds (a m).2 ∧ a' (c.state m) = ((a m).1, c.state (a m).2)) := by
  rcases h m hm with ⟨hholds, heq⟩ | hlost | ⟨f, t, -, hexcess⟩
  · refine .inr ⟨hholds, heq.trans ?_⟩
    cases (a m).1 <;> rfl
  · exact .inl hlost
  · exact absurd hexcess id

/-! ## Instructions -/

theorem carries_pop : c.simulation.Carries id Machine.pop Machine.pop := by
  apply carries_of_eq
  intro m hm
  have hsame : (c.state m).continuation = m.continuation := rfl
  simp only [Machine.pop, hsame]
  cases m.continuation.operands.pop with
  | error cause => exact ⟨hm, rfl⟩
  | ok popped => exact ⟨hm, rfl⟩

theorem carries_push (v : Value) : c.simulation.Carries id (Machine.push v) (Machine.push v) :=
  carries_of_eq fun _ hm => ⟨hm, rfl⟩

theorem carries_dup : c.simulation.Carries id (Machine.perform e limits .dup)
    (Machine.perform e' limits' .dup) := by
  refine Simulation.Carries.get_bind fun m hm => ?_
  exact (Simulation.Carries.lift m.continuation.operands.peek).bind fun v =>
    (carries_push v).bind fun _ => .pure id _

theorem carries_top_bind {ρ : α → β} {k : Frame → Action (Machine S) α}
    {k' : Frame → Action (Machine S') β}
    (h : ∀ f, c.frame f → c.simulation.Carries ρ (k f) (k' f)) :
    c.simulation.Carries ρ (Machine.top >>= k) (Machine.top >>= k') := by
  intro m hm
  have hsame : (c.simulation.state m).continuation.top? = m.continuation.top? := rfl
  rw [Action.bind_eq Machine.top k, Action.bind_eq Machine.top k']
  simp only [Machine.top, hsame]
  cases htop : m.continuation.top? with
  | none => exact .inl ⟨hm, rfl⟩
  | some f => exact h f (hm.1.top htop) m hm

theorem carries_load (h : c.Lawful e e' limits limits') (address : Int) :
    c.simulation.Carries id (Machine.load e address) (Machine.load e' address) := by
  unfold Machine.load
  refine Simulation.Carries.get_bind fun m hm => carries_top_bind fun f hf => ?_
  have hsame : e'.load (c.simulation.state m).rest f address = e.load m.rest f address :=
    h.load m.rest f address hm.2 hf
  rw [hsame]
  exact (Simulation.Carries.lift _).bind fun v => carries_push v

theorem carries_store (h : c.Lawful e e' limits limits') (address : Int) (v : Value) :
    c.simulation.Carries id (Machine.store e address v) (Machine.store e' address v) := by
  unfold Machine.store
  refine carries_top_bind fun f hf => carries_of_eq fun m hm => ?_
  obtain ⟨hrest, heq⟩ := h.store m.rest f address v hm.2 hf
  refine ⟨⟨hm.1, hrest⟩, ?_⟩
  show Machine.inRest (e'.store f address v) ⟨m.continuation, c.view m.rest⟩ = _
  simp only [Machine.inRest, heq]
  rfl

theorem carries_jump (hP : Inherited c.frame) (target : Nat) :
    c.simulation.Carries id (Machine.jump target) (Machine.jump target) :=
  carries_of_eq fun _ hm => ⟨⟨hm.1.modifyTop fun f hf => hP.counter f target hf, hm.2⟩, rfl⟩

/-- **A nested call** is refused by the tighter limit first, and then the first engine is lost. -/
theorem carries_link (h : c.Lawful e e' limits limits') (target : Nat) :
    c.simulation.Carries id (Machine.branch limits target .link)
      (Machine.branch limits' target .link) := by
  refine Simulation.Carries.get_bind fun m hm => ?_
  show c.simulation.Carries id (if limits.callDepth ≤ m.continuation.depth then _ else _)
    (if limits'.callDepth ≤ m.continuation.depth then _ else _)
  obtain ⟨hle, hguard⟩ := h.depth
  by_cases hdeep : limits.callDepth ≤ m.continuation.depth
  · rw [if_pos hdeep]
    rcases hguard with heq | hlost
    · rw [← heq, if_pos hdeep]
      exact carries_of_eq fun m hm => ⟨hm, rfl⟩
    · intro m hm
      exact .inr (.inl ⟨_, _, rfl, hlost⟩)
  · rw [if_neg hdeep, if_neg (by omega)]
    refine carries_top_bind fun f hf => carries_of_eq fun m₁ hm₁ => ?_
    exact ⟨⟨hm.1.pushNested h.inherited hf target, hm.2⟩, rfl⟩

theorem carries_retire (hP : Inherited c.frame) :
    c.simulation.Carries id Machine.retire Machine.retire :=
  carries_of_eq fun _ hm => ⟨⟨hm.1.retire hP, hm.2⟩, rfl⟩

theorem lawful (h : c.Lawful e e' limits limits') :
    c.simulation.Lawful e e' limits limits' where
  pop := carries_pop
  push := carries_push
  dup := carries_dup
  jump := carries_jump h.inherited
  link := carries_link h
  load := carries_load h
  store := carries_store h

theorem carries_perform (h : c.Lawful e e' limits limits') (o : Opcode) :
    c.simulation.Carries id (Machine.perform e limits o) (Machine.perform e' limits' o) :=
  (lawful h).perform (fun _ _ => rfl) (fun keeps verb _ => h.invoke keeps verb)
    fun _ => carries_retire h.inherited

/-! ## Cycles and runs -/

/-- **Settling** looks at the operands, and is lost only to their limit. -/
theorem settle (h : c.Lawful e e' limits limits') (slot position : Nat)
    {r : Except Fault (Option Halt) × Machine S} :
    (∃ f t, Machine.settle limits slot position r = (.faulted f, t) ∧ c.lost f.cause) ∨
      Machine.settle limits' slot position (r.1, c.state r.2) =
        ((Machine.settle limits slot position r).1,
          c.state (Machine.settle limits slot position r).2) := by
  obtain ⟨hle, hguard⟩ := h.height
  rcases r with ⟨fault | _ | halt, m⟩
  · exact .inr rfl
  · have hsame : (c.state m).continuation = m.continuation := rfl
    simp only [Machine.settle, hsame]
    by_cases hover : limits.stackDepth < m.continuation.operands.height
    · rcases hguard with heq | hlost
      · right
        rw [← heq, if_pos hover, if_pos hover]
      · left
        rw [if_pos hover]
        exact ⟨_, _, rfl, by rwa [Machine.traced_cause]⟩
    · right
      rw [if_neg hover, if_neg (by omega)]
  · exact .inr rfl

/-- **Cycles** in lockstep. -/
theorem cycle (h : c.Lawful e e' limits limits') (hm : c.Holds m) :
    (∃ f t, Machine.cycle e limits m = (.faulted f, t) ∧ c.lost f.cause) ∨
      (c.Holds (Machine.cycle e limits m).2 ∧ Machine.cycle e' limits' (c.state m) =
        ((Machine.cycle e limits m).1, c.state (Machine.cycle e limits m).2)) := by
  rcases Machine.cycle_cases e limits m with
    ⟨hf, hc⟩ | ⟨callers, f, cause, hf, hd, hc⟩ | ⟨callers, f, i, hf, hd, hc⟩
  · rw [hc]
    exact .inr ⟨hm, Machine.cycle_of_empty hf⟩
  · rw [hc]
    exact .inr ⟨hm, Machine.cycle_of_malformed (m := c.state m) hf hd⟩
  · have hadvanced : c.Holds (m.advance i.next) :=
      ⟨hm.1.modifyTop fun f hf => h.inherited.counter f i.next hf, hm.2⟩
    rw [hc, Machine.cycle_of_decoded (m := c.state m) hf hd]
    rcases eq_of_carries (carries_perform h i.opcode) hadvanced with ⟨fault, t, hp, hlost⟩ | ⟨hholds, hp⟩
    · left
      rw [hp]
      exact ⟨_, t, rfl, by rwa [Machine.traced_cause]⟩
    · have hsame : (c.state m).advance i.next = c.state (m.advance i.next) := rfl
      rw [hsame, hp]
      rcases settle h callers.height f.counter with hlost | heq
      · exact .inl hlost
      · refine .inr ⟨?_, heq⟩
        rw [Machine.settle_snd]
        exact hholds

/-- **Telling.** The second outcome is the first in the view, unless the first is a lost fault. -/
def Tells (c : Comparison S S') (r : Option (Except Fault α × Machine S))
    (r' : Option (Except Fault α × Machine S')) : Prop :=
  (∃ f m, r = some (.error f, m) ∧ c.lost f.cause) ∨
    ((∀ a m, r = some (a, m) → c.Holds m) ∧ r' = r.map fun (a, m) => (a, c.state m))

theorem tells_none : c.Tells (α := α) none none := by
  refine .inr ⟨?_, rfl⟩
  intro a m h
  cases h

theorem tells_some (r : Except Fault α) (hm : c.Holds m) : c.Tells (some (r, m)) (some (r, c.state m)) := by
  refine .inr ⟨?_, rfl⟩
  intro a t h
  cases h
  exact hm

theorem Tells.of_none {r' : Option (Except Fault α × Machine S')} (h : c.Tells none r') : r' = none := by
  rcases h with ⟨f, m, heq, -⟩ | ⟨-, heq⟩
  · cases heq
  · exact heq

theorem Tells.of_ok {x : α} {r' : Option (Except Fault α × Machine S')}
    (h : c.Tells (some (.ok x, m)) r') : c.Holds m ∧ r' = some (.ok x, c.state m) := by
  rcases h with ⟨f, t, heq, -⟩ | ⟨hholds, heq⟩
  · cases heq
  · exact ⟨hholds _ _ rfl, heq⟩

theorem Tells.of_error {f : Fault} {r' : Option (Except Fault α × Machine S')}
    (h : c.Tells (some (.error f, m)) r') :
    c.lost f.cause ∨ (c.Holds m ∧ r' = some (.error f, c.state m)) := by
  rcases h with ⟨_, _, heq, hlost⟩ | ⟨hholds, heq⟩
  · cases heq
    exact .inl hlost
  · exact .inr ⟨hholds _ _ rfl, heq⟩

/-- **Runs** in lockstep, with the same fuel. -/
theorem run (h : c.Lawful e e' limits limits') (fuel : Nat) (hm : c.Holds m) :
    c.Tells (Machine.run e limits fuel m) (Machine.run e' limits' fuel (c.state m)) := by
  induction fuel generalizing m with
  | zero => exact tells_none
  | succ fuel ih =>
      rcases cycle h hm with ⟨f, t, hc, hlost⟩ | ⟨hholds, hc'⟩
      · left
        exact ⟨f, t, by simp only [Machine.run, hc], hlost⟩
      · rcases hc : Machine.cycle e limits m with ⟨_ | halt | fault, t⟩
        · rw [hc] at hholds hc'
          simp only [Machine.run, hc, hc']
          exact ih hholds
        · rw [hc] at hholds hc'
          simp only [Machine.run, hc, hc']
          exact tells_some _ hholds
        · rw [hc] at hholds hc'
          simp only [Machine.run, hc, hc']
          exact tells_some _ hholds

/-! ## Executions -/

section Executions

open Resumable (World Handler)

variable {σ σ' : Type} {c : Comparison (World σ) (World σ')} {limits limits' : Limits}
variable {t : VerbTable (Handler σ)} {t' : VerbTable (Handler σ')} {m : Machine (World σ)}

/-- **Passes** in lockstep, as long as the tighter budget lasts. -/
theorem passes (h : c.Lawful (Resumable.engine t) (Resumable.engine t') limits limits') {b b' : Nat}
    (hbudget : (limits.restarts = limits'.restarts ∧ b = b') ∨
      (b ≤ b' ∧ c.lost (.restartLimit limits.restarts))) (fuel : Nat) (hm : c.Holds m) :
    c.Tells (Resumable.passes t limits fuel b m) (Resumable.passes t' limits' fuel b' (c.state m)) := by
  have hrun := run h fuel hm
  fun_induction Resumable.passes t limits fuel b m generalizing b' with
  | case1 b m hr =>
      rw [hr] at hrun
      rw [Resumable.passes, hrun.of_none]
      exact tells_none
  | case2 b m fault m₁ hr =>
      rw [hr] at hrun
      rcases hrun.of_error with hlost | ⟨hholds, hr'⟩
      · exact .inl ⟨fault, m₁, rfl, hlost⟩
      · rw [Resumable.passes, hr']
        exact tells_some _ hholds
  | case3 b m v m₁ hr | case4 b m m₁ hr =>
      rw [hr] at hrun
      obtain ⟨hholds, hr'⟩ := hrun.of_ok
      rw [Resumable.passes, hr']
      exact tells_some _ hholds
  | case5 m m₁ hr =>
      rw [hr] at hrun
      obtain ⟨hholds, hr'⟩ := hrun.of_ok
      -- without a restart left the first engine is lost, or the second has none left either
      rcases hbudget with ⟨hsame, rfl⟩ | ⟨-, hlost⟩
      · rw [Resumable.passes, hr']
        simp only [← hsame]
        exact tells_some _ hholds
      · exact .inl ⟨_, m₁, rfl, hlost⟩
  | case6 m m₁ hr b ih =>
      rw [hr] at hrun
      obtain ⟨hholds, hr'⟩ := hrun.of_ok
      obtain ⟨n, rfl⟩ : ∃ n, b' = n + 1 := ⟨b' - 1, by omega⟩
      have hrest : (limits.restarts = limits'.restarts ∧ b = n) ∨
          (b ≤ n ∧ c.lost (.restartLimit limits.restarts)) := by
        rcases hbudget with ⟨hsame, hb⟩ | ⟨hle, hlost⟩
        · exact .inl ⟨hsame, by omega⟩
        · exact .inr ⟨by omega, hlost⟩
      have hnext : Resumable.passes t' limits' fuel (n + 1) (c.state m) =
          Resumable.passes t' limits' fuel n (c.state m₁) := by
        rw [Resumable.passes, hr']
      rw [hnext]
      exact ih hrest hholds (run h fuel hholds)

/-- **Executions** in lockstep. -/
theorem execute (h : c.Lawful (Resumable.engine t) (Resumable.engine t') limits limits')
    (hrestarts : Guards limits.restarts limits'.restarts (c.lost (.restartLimit limits.restarts)))
    (fuel : Nat) (hm : c.Holds m) :
    c.Tells (Resumable.execute t limits fuel m) (Resumable.execute t' limits' fuel (c.state m)) := by
  have hsame : (c.state m).continuation = m.continuation := rfl
  simp only [Resumable.execute, hsame]
  split
  · exact tells_some _ hm
  · obtain ⟨hle, hguard⟩ := hrestarts
    apply passes h _ fuel hm
    rcases hguard with heq | hlost
    · exact .inl ⟨heq, heq⟩
    · exact .inr ⟨hle, hlost⟩

end Executions

/-! ## Engines that keep the same -/

/-- The comparison of engines that keep the same, of which the first may be lost to some faults. -/
def losing (S : Type) (lost : Fault.Cause → Prop) : Comparison S S := { view := id, lost := lost }

section Losing

variable {lost : Fault.Cause → Prop} {e e' : Engine S} {limits limits' : Limits}

theorem holds_losing (m : Machine S) : (losing S lost).Holds m := ⟨fun _ _ => trivial, trivial⟩

theorem lawful_losing (hload : e'.load = e.load) (hstore : e'.store = e.store)
    (hinvoke : ∀ keeps verb m, (∃ f t, e.invoke verb keeps m = (.error f, t) ∧ lost f.cause) ∨
      e'.invoke verb keeps m = e.invoke verb keeps m)
    (hdepth : Guards limits.callDepth limits'.callDepth (lost (.callStackOverflow limits.callDepth)))
    (hheight : Guards limits.stackDepth limits'.stackDepth (lost (.stackOverflow limits.stackDepth))) :
    (losing S lost).Lawful e e' limits limits' where
  inherited := inherited_true
  load s f address _ _ := by rw [hload]; rfl
  store s f address v _ _ := ⟨trivial, by rw [hstore]; rfl⟩
  invoke keeps verb := by
    intro m _
    rcases hinvoke keeps verb m with hlost | heq
    · exact .inr (.inl hlost)
    · refine .inl ⟨holds_losing _, Eq.trans heq ?_⟩
      rcases e.invoke verb keeps m with ⟨fault | flow, t⟩ <;> rfl
  depth := hdepth
  height := hheight

/-- **Losing or equal.** Such engines come to the same, unless the first is lost. -/
def LosesOrEqual (lost : Fault.Cause → Prop) (r r' : Option (Except Fault α × β)) : Prop :=
  (∃ f b, r = some (.error f, b) ∧ lost f.cause) ∨ r = r'

theorem Tells.losesOrEqual {r r' : Option (Except Fault α × Machine S)}
    (h : (losing S lost).Tells r r') : LosesOrEqual lost r r' := by
  rcases h with hlost | ⟨-, heq⟩
  · exact .inl hlost
  · right
    rw [heq]
    cases r <;> rfl

theorem LosesOrEqual.map {γ δ : Type} {g : Except Fault α × β → Except Fault γ × δ}
    {r r' : Option (Except Fault α × β)} (hg : ∀ f b, ∃ d, g (.error f, b) = (.error f, d))
    (h : LosesOrEqual lost r r') : LosesOrEqual lost (r.map g) (r'.map g) := by
  rcases h with ⟨f, b, rfl, hlost⟩ | rfl
  · obtain ⟨d, hd⟩ := hg f b
    left
    exact ⟨f, d, by rw [Option.map_some, hd], hlost⟩
  · exact .inr rfl

theorem run_losing (h : (losing S lost).Lawful e e' limits limits') (fuel : Nat) (m : Machine S) :
    LosesOrEqual lost (Machine.run e limits fuel m) (Machine.run e' limits' fuel m) :=
  (run h fuel (holds_losing m)).losesOrEqual

theorem transientRun_losing {ω : Type} {t t' : VerbTable (Transient.Handler ω)}
    (h : (losing _ lost).Lawful (Transient.engine t) (Transient.engine t') limits limits')
    (fuel : Nat) (script : Script) (entry : Nat) (s : Transient.State ω) :
    LosesOrEqual lost (Transient.run t limits fuel script entry s)
      (Transient.run t' limits' fuel script entry s) := by
  unfold Transient.run
  cases script.program.checkAddress entry with
  | error cause => exact .inr rfl
  | ok _ =>
      apply (run_losing h fuel _).map
      intro f m
      exact ⟨m.rest, rfl⟩

theorem transientRunMessage_losing {ω : Type} {t t' : VerbTable (Transient.Handler ω)}
    (h : (losing _ lost).Lawful (Transient.engine t) (Transient.engine t') limits limits')
    (fuel : Nat) (script : Script) (message : String) (s : Transient.State ω) :
    LosesOrEqual lost (Transient.runMessage t limits fuel script message s)
      (Transient.runMessage t' limits' fuel script message s) := by
  unfold Transient.runMessage
  cases script.entryPoint message with
  | error cause => exact .inr rfl
  | ok entry => exact transientRun_losing h fuel script entry s

theorem execute_losing {σ : Type} {t t' : VerbTable (Resumable.Handler σ)}
    (h : (losing _ lost).Lawful (Resumable.engine t) (Resumable.engine t') limits limits')
    (hrestarts : Guards limits.restarts limits'.restarts (lost (.restartLimit limits.restarts)))
    (fuel : Nat) (m : Machine (Resumable.World σ)) :
    LosesOrEqual lost (Resumable.execute t limits fuel m) (Resumable.execute t' limits' fuel m) :=
  (execute h hrestarts fuel (holds_losing m)).losesOrEqual

end Losing
end Comparison
end CogMachine
