import CogMachine.Host.Console
import CogMachine.Proofs.Reachable

/-!
# Verbs of the host

The resumable host offers the system verbs and the two printing ones. They pop operands, read the calling
frame and write its return register, and print; so an invariant that these cannot break is kept by all of them.

- `HostVerb` are these verbs, `hostVerb_of_mem` says that the host's table holds no others.
- `upholds_invoke` passes an invariant from the verbs of a table to the calls, and `HostVerb.upholds` to the
  verbs of the host. They keep the frames in place, for one (`HostVerb.keepsPlaces`).
- `givesValue_of_ne`: the verbs of the host give a value, all but `suspend`.
-/

namespace CogMachine.Resumable

open CogMachine.Action (Upholds)

variable {σ : Type} {write : String → σ → σ} {handler : Handler σ}

/-- **The verbs of the resumable host.** -/
inductive HostVerb (write : String → σ → σ) : Handler σ → Prop where
  | getSender : HostVerb write getSender
  | getSource : HostVerb write getSource
  | getParam : HostVerb write getParam
  | setReturn : HostVerb write setReturn
  | suspend : HostVerb write suspend
  | print (line : Value → String) : HostVerb write (Host.resumablePrint write line)

theorem verbs_host (write : String → σ → σ) : (Host.resumableVerbs write).verbs =
    [⟨"getsenderref", getSender⟩, ⟨"getsourceref", getSource⟩, ⟨"getparam", getParam⟩,
      ⟨"returnex", setReturn⟩, ⟨"suspend", suspend⟩,
      ⟨"print", Host.resumablePrint write Value.text⟩,
      ⟨"printint", Host.resumablePrint write Host.intLine⟩] := rfl

theorem hostVerb_of_mem {v : Verb (Handler σ)} (h : v ∈ (Host.resumableVerbs write).verbs) :
    HostVerb write v.handler := by
  rw [verbs_host] at h
  simp only [List.mem_cons, List.not_mem_nil, or_false] at h
  rcases h with rfl | rfl | rfl | rfl | rfl | rfl | rfl
  · exact .getSender
  · exact .getSource
  · exact .getParam
  · exact .setReturn
  · exact .suspend
  · exact .print _
  · exact .print _

/-! ## Invariants -/

section Invariants

variable {I : Machine (World σ) → Prop} {Q : Fault → Prop}

/-- A call upholds what all verbs of the table do. -/
theorem upholds_invoke {t : VerbTable (Handler σ)} (hunknown : ∀ number, Q (.ofCause (.unknownVerb number)))
    (hverbs : ∀ v ∈ t.verbs, ∀ keeps, Upholds I Q (v.handler keeps)) (id : VerbId) (keeps : Bool) :
    Upholds I Q ((engine t).invoke id keeps) := by
  intro m hm
  simp only [engine, invoke]
  cases hv : t.get id with
  | error cause =>
      rw [VerbTable.get_eq_error hv]
      exact ⟨hm, hunknown _⟩
  | ok v => exact hverbs v (VerbTable.mem_of_get hv) keeps m hm

theorem upholds_callingFrame (hframe : Q noFrame) : Upholds I Q (callingFrame (σ := σ)) := by
  intro m hm
  unfold callingFrame
  cases m.continuation.top? with
  | none => exact ⟨hm, hframe⟩
  | some f => exact hm

/-- **What the host's verbs keep:** an invariant that outlasts the popping of operands, and that ignores the
return register of the calling frame and the services. -/
theorem HostVerb.upholds (h : HostVerb write handler) (keeps : Bool)
    (hunderflow : Q (.ofCause .stackUnderflow)) (hframe : Q noFrame)
    (hpopped : ∀ m, I m → ∀ operands v, m.continuation.operands = operands.push v →
      I { m with continuation := { m.continuation with operands } })
    (hresult : ∀ m, I m → ∀ v, I { m with continuation := m.continuation.modifyTop (·.setResult v) })
    (hservices : ∀ m, I m → ∀ services, I { m with rest := { m.rest with services } }) :
    Upholds I Q (handler keeps) := by
  have hpop : Upholds I Q (popOperand (σ := σ)) := Machine.upholds_pop hunderflow hpopped
  have hcalling := upholds_callingFrame (I := I) hframe
  cases h with
  | getSender => exact hcalling.bind fun f => .pure _
  | getSource => exact hcalling.bind fun f => .pure _
  | getParam =>
      refine hpop.bind fun v => Upholds.get.bind fun m => ?_
      show Upholds _ _ (if v.asInt < 0 then _ else _)
      split
      · exact .pure _
      · exact .pure _
  | setReturn =>
      refine hpop.bind fun v => Upholds.bind ?_ fun _ => .pure _
      exact hcalling.bind fun f m hm => hresult m hm v
  | suspend => exact .pure _
  | print line =>
      refine hpop.bind fun v => Upholds.bind ?_ fun _ => .pure _
      exact fun m hm => hservices m hm _

end Invariants

/-! ## Answers -/

/-- An action that gives a value if it does not fail. -/
def GivesValue (action : Action (Machine (World σ)) Flow) : Prop :=
  ∀ m flow, (action m).1 = .ok flow → ∃ v, flow = .value v

theorem GivesValue.pure (v : Value) :
    GivesValue (Pure.pure (.value v) : Action (Machine (World σ)) Flow) := by
  rintro m flow ⟨⟩
  exact ⟨v, rfl⟩

theorem GivesValue.bind {α : Type} {a : Action (Machine (World σ)) α}
    {k : α → Action (Machine (World σ)) Flow} (hk : ∀ x, GivesValue (k x)) : GivesValue (a >>= k) := by
  intro m flow h
  have hsplit : (a >>= k) m = (.ok flow, ((a >>= k) m).2) := Prod.ext h rfl
  obtain ⟨x, m₁, -, hx⟩ := Action.bind_eq_ok hsplit
  exact hk x m₁ flow (by rw [hx])

/-- **Verbs of the host** give a value, all but `suspend`. -/
theorem givesValue_of_ne {j : Nat} {v : Verb (Handler σ)}
    (hv : (Host.resumableVerbs write).verbs[j]? = some v) (hj : j ≠ 4) (keeps : Bool) :
    GivesValue (v.handler keeps) := by
  rw [verbs_host] at hv
  rcases j with _ | _ | _ | _ | _ | _ | _ | j
  · cases hv
    exact .bind fun _ => .pure _
  · cases hv
    exact .bind fun _ => .pure _
  · cases hv
    refine .bind fun v => .bind fun m => ?_
    show GivesValue (if v.asInt < 0 then _ else _)
    split
    · exact .pure _
    · exact .pure _
  · cases hv
    exact .bind fun _ => .bind fun _ => .pure _
  · exact absurd rfl hj
  · cases hv
    exact .bind fun _ => .bind fun _ => .pure _
  · cases hv
    exact .bind fun _ => .bind fun _ => .pure _
  · cases hv

/-! ## Places -/

theorem HostVerb.keepsPlaces (h : HostVerb write handler) : KeepsPlaces handler := by
  intro keeps m
  have hupholds : Upholds (fun m' : Machine (World σ) => m'.continuation.places = m.continuation.places)
      (fun _ => True) (handler keeps) := by
    refine h.upholds keeps trivial trivial (fun _ hm _ _ _ => hm) ?_ (fun _ hm _ => hm)
    rintro ⟨⟨frames, operands⟩, rest⟩ hm v
    rcases frames.eq_empty_or_push with rfl | ⟨callers, g, rfl⟩
    · exact hm
    · exact hm
  exact (hupholds m rfl).state

/-- An engine whose verbs are those of the host is orderly. -/
theorem orderly_of_hostVerb {t : VerbTable (Handler σ)} (h : ∀ v ∈ t.verbs, HostVerb write v.handler) :
    Machine.Orderly (engine t) :=
  orderly fun v hv => (h v hv).keepsPlaces

/-- The verbs of a host that prints nowhere. -/
def quietVerbs : VerbTable (Handler Unit) := Host.resumableVerbs fun _ s => s

/-- A world with one memory, which has no cells. -/
def oneMemory : World Unit := ⟨⟨#[.empty]⟩, ()⟩

end CogMachine.Resumable
