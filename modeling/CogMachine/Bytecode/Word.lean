/-!
# Little-endian words

Operands are four bytes, least significant first. `wordBytes` keeps a number modulo `2^32`, and
`wordValue` reads it back. `slice?` and `overwrite` read and write bytes in place.
-/

namespace CogMachine

def wordLimit : Nat := 0x100000000

/-- **The four bytes** of a number modulo `2^32`, least significant first. -/
def wordBytes (n : Nat) : List UInt8 :=
  [UInt8.ofNat n, UInt8.ofNat (n / 0x100), UInt8.ofNat (n / 0x10000), UInt8.ofNat (n / 0x1000000)]

/-- The number that bytes denote, least significant first. -/
def wordValue (bytes : List UInt8) : Nat := bytes.foldr (fun b n => b.toNat + 0x100 * n) 0

/-- **Slices.** The `n` bytes from position `start` on, if there are so many. -/
def slice? (bytes : Array UInt8) (start n : Nat) : Option (List UInt8) :=
  if start + n ≤ bytes.size then some (bytes.extract start (start + n)).toList else none

/-- The bytes with others written over those from a position on. What would lie outside is dropped. -/
def overwrite (bytes : Array UInt8) (start : Nat) : List UInt8 → Array UInt8
  | [] => bytes
  | b :: rest => overwrite (bytes.setIfInBounds start b) (start + 1) rest

@[simp] theorem length_wordBytes (n : Nat) : (wordBytes n).length = 4 := rfl

/-- A word reads back modulo `2^32`. -/
theorem wordValue_wordBytes (n : Nat) : wordValue (wordBytes n) = n % wordLimit := by
  simp only [wordBytes, wordValue, wordLimit, List.foldr, UInt8.toNat_ofNat']
  omega

theorem wordBytes_wordValue (a b c d : UInt8) :
    wordBytes (wordValue [a, b, c, d]) = [a, b, c, d] := by
  have ha := a.toNat_lt
  have hb := b.toNat_lt
  have hc := c.toNat_lt
  have hd := d.toNat_lt
  simp only [wordBytes, wordValue, List.foldr, List.cons.injEq, and_true]
  refine ⟨?_, ?_, ?_, ?_⟩ <;> apply UInt8.toNat_inj.1 <;> rw [UInt8.toNat_ofNat'] <;> omega

theorem slice?_append (before text after : List UInt8) :
    slice? (before ++ text ++ after).toArray before.length text.length = some text := by
  simp [slice?, List.extract_eq_take_drop]

/-- Overwriting a text with one of the same length leaves what stands before and after it. -/
theorem overwrite_append (before after : List UInt8) {old new : List UInt8}
    (h : old.length = new.length) :
    overwrite (before ++ (old ++ after)).toArray before.length new =
      (before ++ (new ++ after)).toArray := by
  induction new generalizing before old with
  | nil =>
      have hold : old = [] := List.eq_nil_of_length_eq_zero h
      rw [hold]
      rfl
  | cons b rest ih =>
      cases old with
      | nil => simp at h
      | cons a old =>
          have hset : (before ++ (a :: old ++ after)).toArray.setIfInBounds before.length b =
              ((before ++ [b]) ++ (old ++ after)).toArray := by
            simp
          have hrest := ih (before ++ [b]) (Nat.succ.inj h)
          unfold overwrite
          rw [hset]
          simpa using hrest

end CogMachine
