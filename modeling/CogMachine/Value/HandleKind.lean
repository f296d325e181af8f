/-!
# Kinds of handles

A handle names an object of the world outside the machine; its kind says which sort of object.
Each kind has a keyword for source text and a code byte for programs, its position in `all`.
-/

namespace CogMachine

/-- The sort of object that a handle names. -/
inductive HandleKind where
  | sector | surface | thing | cog | message | ai | keyframe | material | model | sound
  | template | colormap
  deriving DecidableEq, Inhabited, Repr

namespace HandleKind

def all : List HandleKind :=
  [sector, surface, thing, cog, message, ai, keyframe, material, model, sound, template, colormap]

def keyword : HandleKind → String
  | sector => "sector"
  | surface => "surface"
  | thing => "thing"
  | cog => "cog"
  | message => "message"
  | ai => "ai"
  | keyframe => "keyframe"
  | material => "material"
  | model => "model"
  | sound => "sound"
  | template => "template"
  | colormap => "colormap"

def toByte : HandleKind → UInt8
  | sector => 0
  | surface => 1
  | thing => 2
  | cog => 3
  | message => 4
  | ai => 5
  | keyframe => 6
  | material => 7
  | model => 8
  | sound => 9
  | template => 10
  | colormap => 11

def ofByte? (b : UInt8) : Option HandleKind := all[b.toNat]?

/-- The kind with a keyword, which is spelt in lower case. -/
def ofKeyword? (word : String) : Option HandleKind := all.find? (·.keyword == word)

@[simp] theorem ofByte?_toByte (k : HandleKind) : ofByte? k.toByte = some k := by
  cases k <;> rfl

/-- A code byte that reads as a kind is the code of that kind. -/
theorem toByte_of_ofByte? {b : UInt8} {k : HandleKind} (h : ofByte? b = some k) :
    k.toByte = b := by
  have hb : b.toNat < 12 := by
    have := List.getElem?_eq_some_iff.1 h
    obtain ⟨hlt, _⟩ := this
    simpa [all] using hlt
  have : ∀ n < 12, ∀ k : HandleKind, all[n]? = some k → k.toByte = UInt8.ofNat n := by decide
  have := this b.toNat hb k h
  simpa using this

@[simp] theorem ofKeyword?_keyword (k : HandleKind) : ofKeyword? k.keyword = some k := by
  cases k <;> decide

end HandleKind
end CogMachine
