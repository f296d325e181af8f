import CogMachine.Proofs.Cycle

/-!
# Simulations of actions

Two machines that differ in what surrounds a run are compared action by action. A simulation maps the
states of one machine to states of the other, and an action carries over if it does in the image what
it did before, with the image of its value.

- Some faults need not be matched: those that the first machine may be `lost` to, and those that the
  second may raise in `excess`.
- Sequences carry over if their parts do (`Carries.bind`).
- `Lawful` lists what has to be shown of a simulation: the primitive actions. `Lawful.perform` derives
  every instruction from them, up to calls of verbs and returns, and `Lawful.perform_matching` the same
  for machines whose instructions have other targets or call other verbs.
-/

namespace CogMachine

/-- **A simulation** of one machine by another. -/
structure Simulation (S S' : Type) where
  /-- What holds of the states of the first machine. -/
  invariant : Machine S → Prop
  state : Machine S → Machine S'
  /-- Where a branch of the second machine leads that stands for one of the first. -/
  target : Nat → Nat := id
  /-- Faults of the first machine that the second need not raise. -/
  lost : Fault → Prop
  /-- Faults that the second machine may raise where the first does not. -/
  excess : Fault → Prop

namespace Simulation

variable {S S' α β γ δ : Type} {sim : Simulation S S'}

/-- **Carrying over.** `a'` does in the image what `a` does, with the image of its value under `ρ`,
unless one of them raises a fault that need not be matched. -/
def Carries (sim : Simulation S S') (ρ : α → β) (a : Action (Machine S) α)
    (a' : Action (Machine S') β) : Prop :=
  ∀ m, sim.invariant m →
    (sim.invariant (a m).2 ∧ a' (sim.state m) = ((a m).1.map ρ, sim.state (a m).2)) ∨
    (∃ f t, a m = (.error f, t) ∧ sim.lost f) ∨
    (∃ f t, a' (sim.state m) = (.error f, t) ∧ sim.excess f)

namespace Carries

/-- **Sequences carry over** if their parts do. -/
theorem bind {ρ : α → β} {ρ' : γ → δ} {a : Action (Machine S) α} {a' : Action (Machine S') β}
    {f : α → Action (Machine S) γ} {f' : β → Action (Machine S') δ} (ha : sim.Carries ρ a a')
    (hf : ∀ x, sim.Carries ρ' (f x) (f' (ρ x))) : sim.Carries ρ' (a >>= f) (a' >>= f') := by
  intro m hm
  rcases ha m hm with ⟨hinv, heq⟩ | ⟨fault, t, h, hlost⟩ | ⟨fault, t, h, hexcess⟩
  · rcases hr : a m with ⟨fault | x, t⟩
    · rw [hr] at hinv heq
      rw [Action.bind_error f hr, Action.bind_error f' heq]
      exact .inl ⟨hinv, rfl⟩
    · rw [hr] at hinv heq
      have hnext := hf x t hinv
      rw [← Action.bind_ok f hr] at hnext
      rw [Action.bind_ok f' heq]
      rcases hnext with hnext | ⟨fault, u, h, hlost⟩ | hexcess
      · exact .inl hnext
      · exact .inr (.inl ⟨fault, u, h, hlost⟩)
      · exact .inr (.inr hexcess)
  · exact .inr (.inl ⟨fault, t, Action.bind_error f h, hlost⟩)
  · exact .inr (.inr ⟨fault, t, Action.bind_error f' h, hexcess⟩)

theorem pure (ρ : α → β) (x : α) : sim.Carries ρ (Pure.pure x) (Pure.pure (ρ x)) := by
  intro m hm
  exact .inl ⟨hm, rfl⟩

theorem get_bind {ρ : α → β} {f : Machine S → Action (Machine S) α}
    {f' : Machine S' → Action (Machine S') β}
    (hf : ∀ m, sim.invariant m → sim.Carries ρ (f m) (f' (sim.state m))) :
    sim.Carries ρ (get >>= f) (get >>= f') := by
  intro m hm
  rw [Action.bind_eq get f, Action.bind_eq get f']
  exact hf m hm m hm

theorem lift (r : Except Fault.Cause α) :
    sim.Carries id (Machine.lift r) (Machine.lift r) := by
  intro m hm
  cases r with
  | error cause => exact .inl ⟨hm, rfl⟩
  | ok x => exact .inl ⟨hm, rfl⟩

end Carries

/-- **What has to be shown** of a simulation: that the primitive actions carry over. -/
structure Lawful (sim : Simulation S S') (e : Engine S) (e' : Engine S')
    (limits limits' : Limits) : Prop where
  pop : sim.Carries id Machine.pop Machine.pop
  push (v : Value) : sim.Carries id (Machine.push v) (Machine.push v)
  dup : sim.Carries id (Machine.perform e limits .dup) (Machine.perform e' limits' .dup)
  jump (target : Nat) : sim.Carries id (Machine.jump target) (Machine.jump (sim.target target))
  link (target : Nat) : sim.Carries id (Machine.branch limits target .link)
    (Machine.branch limits' (sim.target target) .link)
  load (address : Int) : sim.Carries id (Machine.load e address) (Machine.load e' address)
  store (address : Int) (v : Value) :
    sim.Carries id (Machine.store e address v) (Machine.store e' address v)

namespace Lawful

variable {e : Engine S} {e' : Engine S'} {limits limits' : Limits}

theorem access (h : sim.Lawful e e' limits limits') (op : MemoryOp) (address : Nat) :
    sim.Carries id (Machine.access e address op) (Machine.access e' address op) := by
  cases op with
  | load => exact h.load _
  | loadIndexed => exact h.pop.bind fun index => h.load _
  | store => exact h.pop.bind fun v => h.store _ v
  | storeIndexed => exact h.pop.bind fun index => h.pop.bind fun v => h.store _ v

theorem branch (h : sim.Lawful e e' limits limits') (op : BranchOp) (target : Nat) :
    sim.Carries id (Machine.branch limits target op)
      (Machine.branch limits' (sim.target target) op) := by
  cases op with
  | jump => exact h.jump target
  | link => exact h.link target
  | ifTrue =>
      refine h.pop.bind fun v => ?_
      show sim.Carries id (if v.isTruthy then _ else _) (if v.isTruthy then _ else _)
      cases v.isTruthy with
      | true => exact h.jump target
      | false => exact .pure id ()
  | ifFalse =>
      refine h.pop.bind fun v => ?_
      show sim.Carries id (if !v.isTruthy then _ else _) (if !v.isTruthy then _ else _)
      cases v.isTruthy with
      | true => exact .pure id ()
      | false => exact h.jump target

theorem call (h : sim.Lawful e e' limits limits') {keeps : Bool} {verb verb' : VerbId}
    (hverb : sim.Carries id (e.invoke verb keeps) (e'.invoke verb' keeps)) :
    sim.Carries id (Machine.call e keeps verb) (Machine.call e' keeps verb') := by
  refine hverb.bind fun flow => ?_
  cases flow with
  | value v =>
      cases keeps with
      | true => exact (h.push v).bind fun _ => .pure id _
      | false => exact .pure id _
  | suspend => exact .pure id _
  | restart => exact .pure id _

end Lawful

/-- **Matching opcodes:** the same ones, but for the targets of branches, which the simulation gives, and
for the verbs of calls, which have to carry over. -/
inductive Matching (sim : Simulation S S') (e : Engine S) (e' : Engine S') : Opcode → Opcode → Prop where
  | push (v : Value) : Matching sim e e' (.push v) (.push v)
  | dup : Matching sim e e' .dup .dup
  | memory (op : MemoryOp) (address : Nat) : Matching sim e e' (.memory op address) (.memory op address)
  | branch (op : BranchOp) (target : Nat) :
      Matching sim e e' (.branch op target) (.branch op (sim.target target))
  | call {keeps : Bool} {verb verb' : VerbId}
      (h : sim.Carries id (e.invoke verb keeps) (e'.invoke verb' keeps)) :
      Matching sim e e' (.call keeps verb) (.call keeps verb')
  | ret (h : sim.Carries id Machine.retire Machine.retire) : Matching sim e e' .ret .ret
  | unary (op : UnaryOp) : Matching sim e e' (.unary op) (.unary op)
  | binary (op : BinaryOp) : Matching sim e e' (.binary op) (.binary op)

namespace Lawful

variable {e : Engine S} {e' : Engine S'} {limits limits' : Limits}

/-- **Matching instructions carry over.** -/
theorem perform_matching (h : sim.Lawful e e' limits limits') {o o' : Opcode}
    (ho : Matching sim e e' o o') :
    sim.Carries id (Machine.perform e limits o) (Machine.perform e' limits' o') := by
  cases ho with
  | push v => exact (h.push v).bind fun _ => .pure id _
  | dup => exact h.dup
  | memory op address => exact (h.access op address).bind fun _ => .pure id _
  | branch op target => exact (h.branch op target).bind fun _ => .pure id _
  | call hverb => exact h.call hverb
  | ret hret => exact hret
  | unary op => exact h.pop.bind fun v => (h.push _).bind fun _ => .pure id _
  | binary op =>
      refine h.pop.bind fun b => h.pop.bind fun a => ?_
      exact (Carries.lift _).bind fun v => (h.push v).bind fun _ => .pure id _

/-- **Every instruction carries over** if its target stays, and the verb that it calls and the return that
it is carry over. -/
theorem perform (h : sim.Lawful e e' limits limits') {o : Opcode}
    (htarget : ∀ target, o.target? = some target → sim.target target = target)
    (hcall : ∀ keeps verb, o = .call keeps verb →
      sim.Carries id (e.invoke verb keeps) (e'.invoke verb keeps))
    (hret : o = .ret → sim.Carries id Machine.retire Machine.retire) :
    sim.Carries id (Machine.perform e limits o) (Machine.perform e' limits' o) := by
  apply h.perform_matching
  cases o with
  | push v => exact .push v
  | dup => exact .dup
  | memory op address => exact .memory op address
  | branch op target =>
      have hsame : Matching sim e e' (.branch op target) (.branch op (sim.target target)) :=
        .branch op target
      rwa [htarget target rfl] at hsame
  | call keeps verb => exact .call (hcall keeps verb rfl)
  | ret => exact .ret (hret rfl)
  | unary op => exact .unary op
  | binary op => exact .binary op

end Lawful
end Simulation
end CogMachine
