/-!
# Code points

A text is made of code points. Most are characters; the others are the surrogates, which stand for no
character. A text can still hold one: a file name has one for each of its bytes that is no UTF-8, and an
escape may write half of a pair.
-/
namespace ApexComments

/-- A character, or one of the surrogates by its offset from the first. -/
inductive CodePoint where
  | char (c : Char)
  | surrogate (offset : Fin 0x800)
  deriving DecidableEq, Repr

namespace CodePoint

instance : Coe Char CodePoint := ⟨char⟩

/-- The number of a code point. -/
def toNat : CodePoint → Nat
  | char c => c.toNat
  | surrogate offset => 0xD800 + offset

/-- The code point of a number. -/
def ofNat (n : Nat) : CodePoint :=
  if inside : 0xD800 ≤ n ∧ n < 0xE000 then surrogate ⟨n - 0xD800, by omega⟩ else char (.ofNat n)

/-- Whether the code point is no character. -/
def isSurrogate : CodePoint → Bool
  | char _ => false
  | surrogate _ => true

@[simp] theorem toNat_char (c : Char) : (char c).toNat = c.toNat := rfl

@[simp] theorem toNat_surrogate (offset : Fin 0x800) : (surrogate offset).toNat = 0xD800 + offset := rfl

@[simp] theorem isSurrogate_char (c : Char) : (char c).isSurrogate = false := rfl

@[simp] theorem isSurrogate_surrogate (offset : Fin 0x800) : (surrogate offset).isSurrogate = true := rfl

/-- The numbers of characters and of surrogates do not meet. -/
theorem toNat_ne_of_char (c : Char) (offset : Fin 0x800) : c.toNat ≠ 0xD800 + offset := by
  have valid : c.toNat < 0xD800 ∨ 0xDFFF < c.toNat ∧ c.toNat < 0x110000 := c.valid
  have bounded := offset.isLt
  omega

theorem toNat_inj {a b : CodePoint} : a.toNat = b.toNat ↔ a = b := by
  refine ⟨fun same => ?_, fun same => congrArg toNat same⟩
  cases a with
  | char c =>
    cases b with
    | char d => rw [Char.toNat_inj.mp same]
    | surrogate other => exact absurd same (toNat_ne_of_char c other)
  | surrogate offset =>
    cases b with
    | char d => exact absurd same.symm (toNat_ne_of_char d offset)
    | surrogate other => exact congrArg surrogate (Fin.ext (Nat.add_left_cancel same))

@[simp] theorem ofNat_toNat (c : CodePoint) : ofNat c.toNat = c := by
  cases c with
  | char c =>
    have valid : c.toNat < 0xD800 ∨ 0xDFFF < c.toNat ∧ c.toNat < 0x110000 := c.valid
    rw [ofNat, toNat_char, dif_neg (by omega), Char.ofNat_toNat]
  | surrogate offset =>
    have bounded := offset.isLt
    rw [ofNat, toNat_surrogate, dif_pos (by omega)]
    exact congrArg surrogate (Fin.ext (by simp))

end CodePoint

end ApexComments
