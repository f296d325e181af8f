import CogMachine.Machine.Frame
import CogMachine.Machine.Stack

/-!
# Continuations

A continuation is everything one run needs to go on: its frames, the innermost on top, and the
operand stack they share. A continuation that is not running is plain data.
-/

namespace CogMachine

/-- The state of one run. -/
structure Continuation where
  /-- Active calls, the innermost on top. -/
  frames : Stack Frame
  operands : Stack Value
  deriving DecidableEq, Inhabited, Repr

namespace Continuation

def empty : Continuation := ⟨.empty, .empty⟩

/-- **Entering a frame.** It notes the height of the operand stack. -/
def pushFrame (c : Continuation) (f : Frame) : Continuation :=
  { c with frames := c.frames.push { f with height := c.operands.height } }

def ofFrame (f : Frame) : Continuation := empty.pushFrame f

def top? (c : Continuation) : Option Frame := c.frames.top?

def modifyTop (c : Continuation) (g : Frame → Frame) : Continuation :=
  { c with frames := c.frames.modifyTop g }

/-- The innermost frame, and the continuation without it. -/
def popFrame (c : Continuation) : Option Frame × Continuation :=
  match c.frames.pop? with
  | none => (none, c)
  | some (f, callers) => (some f, { c with frames := callers })

def depth (c : Continuation) : Nat := c.frames.height

def isFinished (c : Continuation) : Bool := c.frames.isEmpty

/-- **Trace.** Where each frame is, outermost first. -/
def trace (c : Continuation) : List Fault.Location := c.frames.toList.map Frame.location

def result (c : Continuation) : Value := (c.top?.map Frame.result).getD .void

/-- **Result of a frame** that returns: its return register if that was written, else the topmost
operand that it left above its height, else void. -/
def resultOf (operands : Stack Value) (f : Frame) : Value :=
  match f.returned with
  | some v => v
  | none => if f.height < operands.height then operands.top?.getD .void else .void

/-- **Returning** from the innermost frame. If it was the last, the run is over with its result.
Otherwise the operands above its height are dropped, and the result goes where its flags say. -/
def retire (c : Continuation) : Option Value × Continuation :=
  match c.frames.pop? with
  | none => (some .void, c)
  | some (f, callers) =>
    let v := resultOf c.operands f
    if callers.isEmpty then (some v, { c with frames := callers })
    else
      let kept := c.operands.truncate f.height
      (none, {
        frames := if f.savesResult then callers.modifyTop (·.setResult v) else callers
        operands := if f.pushesResult then kept.push v else kept })

variable {c c' : Continuation}

/-- The caller after the frame `f` returned a value. -/
def receive (f : Frame) (v : Value) (caller : Frame) : Frame :=
  if f.savesResult then caller.setResult v else caller

/-- The operands after the frame `f` returned a value. -/
def deliver (f : Frame) (v : Value) (operands : Stack Value) : Stack Value :=
  if f.pushesResult then operands.push v else operands

@[simp] theorem receive_height (f : Frame) (v : Value) (caller : Frame) :
    (receive f v caller).height = caller.height := by
  unfold receive
  split <;> rfl

theorem retire_push_push {rest : Stack Frame} {caller f : Frame}
    (h : c.frames = (rest.push caller).push f) :
    c.retire = (none, ⟨rest.push (receive f (resultOf c.operands f) caller),
      deliver f (resultOf c.operands f) (c.operands.truncate f.height)⟩) := by
  rw [retire, h]
  simp only [Stack.pop?_push, Stack.isEmpty_push, Bool.false_eq_true, if_false, receive, deliver]
  cases f.savesResult <;> rfl

/-- A return that does not end the run is a return to a frame. -/
theorem frames_of_retire (h : c.retire = (none, c')) :
    ∃ (rest : Stack Frame) (caller f : Frame), c.frames = (rest.push caller).push f := by
  rcases c.frames.eq_empty_or_push with hf | ⟨callers, f, hf⟩
  · rw [retire, hf] at h
    cases h
  · rcases callers.eq_empty_or_push with rfl | ⟨rest, caller, rfl⟩
    · rw [retire, hf] at h
      simp at h
    · exact ⟨rest, caller, f, hf⟩

/-- A return that ends the run is one from the only frame. -/
theorem retire_last {f : Frame} (h : c.frames = Stack.empty.push f) :
    c.retire = (some (resultOf c.operands f), { c with frames := .empty }) := by
  rw [retire, h]
  rfl

end Continuation
end CogMachine
