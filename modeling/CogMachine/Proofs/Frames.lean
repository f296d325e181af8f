import CogMachine.Machine.Continuation

/-!
# What frames inherit

What holds of all frames of a continuation often goes on to hold, whatever the instructions do: the memory
of a frame, for one, is that of its caller.

- `Inherited`: what holds of a frame, of everything that becomes of it, and of the frames that it calls.
- `Continuation.Every` holds it of all frames, through jumps, nested calls and returns.
-/

namespace CogMachine

/-- **Inherited.** What holds of a frame goes on to hold of it at other offsets and with other results, and
of the frames that it calls. -/
structure Inherited (P : Frame → Prop) : Prop where
  counter : ∀ f n, P f → P { f with counter := n }
  setResult : ∀ f v, P f → P (f.setResult v)
  nested : ∀ f target height, P f → P { f.nested target with height := height }

theorem inherited_true : Inherited fun _ => True where
  counter _ _ h := h
  setResult _ _ h := h
  nested _ _ _ h := h

/-- **The memory** of a frame. -/
theorem inherited_memory (id : MemoryId) : Inherited fun f => f.memory = some id where
  counter _ _ h := h
  setResult _ _ h := h
  nested _ _ _ h := h

namespace Continuation

variable {P : Frame → Prop} {c : Continuation}

/-- **Of all frames.** -/
def Every (P : Frame → Prop) (c : Continuation) : Prop := ∀ f ∈ c.frames.items, P f

theorem every_push {callers : Stack Frame} {f : Frame} (h : c.frames = callers.push f) :
    c.Every P ↔ P f ∧ ∀ g ∈ callers.items, P g := by
  unfold Every
  rw [h]
  exact List.forall_mem_cons

/-- A single frame notes that there are no operands. -/
theorem every_ofFrame {f : Frame} (h : ∀ height, P { f with height }) : (ofFrame f).Every P := by
  intro g hg
  rw [List.mem_singleton.mp hg]
  exact h _

theorem Every.top {f : Frame} (h : c.Every P) (htop : c.top? = some f) : P f :=
  h f (List.mem_of_mem_head? htop)

theorem Every.modifyTop {g : Frame → Frame} (h : c.Every P) (hg : ∀ f, P f → P (g f)) :
    (c.modifyTop g).Every P := by
  rcases c.frames.eq_empty_or_push with hf | ⟨callers, f, hf⟩
  · intro k hk
    rw [Continuation.modifyTop, hf] at hk
    cases hk
  · obtain ⟨hfirst, hcallers⟩ := (every_push hf).mp h
    have hframes : (c.modifyTop g).frames = callers.push (g f) := by
      rw [Continuation.modifyTop, hf, Stack.modifyTop_push]
    exact (every_push hframes).mpr ⟨hg f hfirst, hcallers⟩

theorem Every.pushNested {f : Frame} (hP : Inherited P) (h : c.Every P) (hf : P f) (target : Nat) :
    (c.pushFrame (f.nested target)).Every P := by
  intro g hg
  rcases List.mem_cons.mp hg with rfl | hg
  · exact hP.nested f target _ hf
  · exact h g hg

/-- A return leaves the frames below, one of them with another result. -/
theorem Every.retire (hP : Inherited P) (h : c.Every P) : c.retire.2.Every P := by
  rcases c.frames.eq_empty_or_push with hf | ⟨callers, f, hf⟩
  · have hretire : c.retire.2 = c := by
      rw [Continuation.retire, hf]
      rfl
    rw [hretire]
    exact h
  · obtain ⟨-, hcallers⟩ := (every_push hf).mp h
    rcases callers.eq_empty_or_push with rfl | ⟨rest, caller, rfl⟩
    · intro g hg
      rw [retire_last hf] at hg
      cases hg
    · obtain ⟨hcaller, hrest⟩ := List.forall_mem_cons.mp hcallers
      have hreceive : P (receive f (resultOf c.operands f) caller) := by
        unfold receive
        split
        · exact hP.setResult caller _ hcaller
        · exact hcaller
      rw [retire_push_push hf]
      exact List.forall_mem_cons.mpr ⟨hreceive, hrest⟩

end Continuation

end CogMachine
