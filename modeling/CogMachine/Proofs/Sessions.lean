import CogMachine.Host.Session
import CogMachine.Proofs.Moving

/-!
# Sessions of the resumable engine

A session lists its script if it was asked to, checks the entry, and opens a frame there on a fresh instance
(`runResumable_eq`). On a recoded script it opens the frame that has moved (`moving_opened`), and a recoded
script can be shown exactly if the script can (`exists_dump_recoded`).
-/

namespace CogMachine

/-! ## Listings -/

/-- A program is listed exactly if nothing is wrong with it. -/
theorem Program.exists_listing_iff (p : Program) :
    (∃ text, p.listing = .ok text) ↔ p.validate = .ok () := by
  have hlisted : (∃ text, p.listing = .ok text) ↔ ∃ is, p.instructions.mapM id = .ok is := by
    unfold Program.listing
    cases p.instructions.mapM id with
    | error cause =>
        constructor
        · rintro ⟨_, ⟨⟩⟩
        · rintro ⟨_, ⟨⟩⟩
    | ok is => exact ⟨fun _ => ⟨is, rfl⟩, fun _ => ⟨_, rfl⟩⟩
  rw [hlisted, Program.validate]
  induction p.instructions with
  | nil => exact ⟨fun _ => rfl, fun _ => ⟨[], rfl⟩⟩
  | cons x xs ih =>
      rw [List.mapM_cons]
      cases x with
      | error cause =>
          constructor
          · rintro ⟨_, ⟨⟩⟩
          · rintro ⟨⟩
      | ok i =>
          show (∃ is, (xs.mapM id >>= fun is => pure (i :: is)) = Except.ok is) ↔
            xs.forM (fun i => i.map fun _ => ()) = .ok ()
          refine Iff.trans ?_ ih
          constructor
          · rintro ⟨is, his⟩
            obtain ⟨rest, hrest, -⟩ := Attempt.bind_eq_ok his
            exact ⟨rest, hrest⟩
          · rintro ⟨rest, hrest⟩
            exact ⟨i :: rest, by rw [hrest]; rfl⟩

theorem Program.validate_eq_ok {p : Program} {os : List Opcode}
    (hp : p = .ofBytes (os.flatMap Opcode.encode)) (hos : WellAimed os) :
    p.validate = .ok () ↔ ∀ o ∈ os, o.target? ≠ some p.length := by
  cases hv : p.validate with
  | ok _ =>
      refine ⟨fun _ o ho ht => ?_, fun _ => rfl⟩
      rw [(validate_ofBytes hp hos).2 ⟨rfl, o, ho, ht⟩] at hv
      cases hv
  | error cause =>
      obtain ⟨-, o, ho, ht⟩ := (validate_ofBytes hp hos).1 hv
      constructor
      · rintro ⟨⟩
      · intro hnone
        exact absurd ht (hnone o ho)

/-- **Validity** is not lost and not gained by recoding. -/
theorem Script.Recoded.validate_iff {r : Recoding} {os : List Opcode} {script script' : Script}
    (h : script.Recoded r os script') :
    script'.program.validate = .ok () ↔ script.program.validate = .ok () := by
  have hlength : script.program.length = extent os := by rw [h.program, Program.length_ofBytes]
  have hlength' : script'.program.length = extent (r.opcodes os) := by
    rw [h.recoded, Program.length_ofBytes]
  rw [Program.validate_eq_ok h.program h.aimed,
    Program.validate_eq_ok h.recoded (r.wellAimed_opcodes h.aimed), hlength, hlength']
  constructor
  · intro hnone o ho ht
    have hkeeps : r.keeps o = true := by
      cases o with
      | call => cases ht
      | push | dup | memory | branch | ret | unary | binary => rfl
    obtain ⟨o', ho'⟩ := Recoding.exists_opcode? hkeeps (r.relocate os)
    apply hnone o' (List.mem_filterMap.2 ⟨o, ho, ho'⟩)
    rw [Recoding.target?_of_opcode? ho', ht, Option.map_some, r.relocate_extent]
  · intro hnone o' ho' ht'
    obtain ⟨o, ho, heq⟩ := List.mem_filterMap.1 ho'
    rw [Recoding.target?_of_opcode? heq] at ht'
    obtain ⟨n, ht, hn⟩ := Option.map_eq_some_iff.1 ht'
    apply hnone o ho
    rw [ht, (Recoding.relocate_eq_extent h.last (h.aimed.target o ho n ht)).1 hn]

namespace Host.Session

variable {s : Session} {script script' : Script} {r : Recoding} {os : List Opcode}

/-- **What a session opens:** a frame on a fresh instance of the script, at an offset. -/
def opened (s : Session) (script : Script) (n : Nat) : Machine (Resumable.World Console) :=
  let (i, memories) := Instance.create script .empty
  ⟨.ofFrame { Frame.enter script n with memory := some i.memory, context := s.context },
    ⟨memories, .empty⟩⟩

theorem isFinished_opened (s : Session) (script : Script) (n : Nat) :
    (s.opened script n).continuation.isFinished = false := rfl

/-- What is shown of the end of a run. -/
def shown (listing : String) (x : Except Fault Report × Console) : Transcript :=
  ⟨listing, x.2, match x.1 with
    | .ok report => .ok report
    | .error f => .error (.fault f)⟩

theorem exists_dump_iff (s : Session) (script : Script) :
    (∃ text, s.dump script = .ok text) ↔ s.printsListing = true → script.program.validate = .ok () := by
  unfold dump
  cases s.printsListing with
  | false => simp
  | true =>
      rw [if_pos rfl, ← Program.exists_listing_iff]
      unfold Script.listing
      cases script.program.listing with
      | error cause =>
          constructor
          · rintro ⟨_, ⟨⟩⟩
          · intro hlisted
            obtain ⟨_, ⟨⟩⟩ := hlisted rfl
      | ok code => exact ⟨fun _ _ => ⟨code, rfl⟩, fun _ => ⟨_, rfl⟩⟩

/-- A recoded script can be shown exactly if the script can. -/
theorem exists_dump_recoded (h : script.Recoded r os script') (s : Session) :
    (∃ text, s.dump script' = .ok text) ↔ ∃ text, s.dump script = .ok text := by
  rw [exists_dump_iff, exists_dump_iff, h.validate_iff]

/-- **A session of the resumable engine** checks its entry, opens a frame and resumes it. -/
theorem runResumable_eq (s : Session) (fuel : Nat) (listing : String) (script : Script) :
    s.runResumable fuel listing script =
      match script.enter s.entry with
      | .error cause => some (shown listing (.error (.ofCause cause), .empty))
      | .ok n => (s.resume fuel fuel 0 (s.opened script n)).map (shown listing) := by
  obtain ⟨mode, entry, context, limits, printsListing⟩ := s
  have hscript : (Instance.create script .empty).1.script = script := rfl
  cases entry with
  | message name =>
      simp only [runResumable, Instance.continuationFor_eq, hscript]
      cases script.enter (.message name) <;> rfl
  | offset n =>
      simp only [runResumable, Instance.continuationAt_eq, hscript]
      cases script.enter (.offset n) <;> rfl

/-- On a recoded script a session opens the frame that has moved. -/
theorem moving_opened (h : script.Recoded r os script') (s : Session) (n : Nat) :
    (Resumable.moving script' (r.relocate os)).state (s.opened script n) =
      s.opened script' (r.relocate os n) := by
  unfold opened Instance.create
  rw [h.symbols]
  rfl

theorem placed_opened (s : Session) (script : Script) {P : Nat → Prop} {n : Nat} (hn : P n) :
    (s.opened script n).Placed script P := by
  intro p hp
  obtain rfl := List.mem_singleton.1 hp
  exact ⟨rfl, hn⟩

end Host.Session
end CogMachine
