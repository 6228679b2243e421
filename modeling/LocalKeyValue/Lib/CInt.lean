import Mathlib

/-!
# C Values

The machine integers of the C sources, where their width shows, and its string
literals. An integer is an `Int` and a conversion to a narrower type reduces it
modulo the width, which is what the compilers the sources are written for do:
into `[-2^31, 2^31)` for `int` and `int32_t`, into `[0, 2^32)` for `uint32_t`.
The remainder `%` of C rounds the quotient towards zero, so it is `Int.tmod` and
takes the sign of its left operand.

## Main definitions

* `toInt32`, `toUInt32`: Conversion to a 32-bit type.
* `InInt32`: A value an `int32_t` can hold.
* `cString`: The bytes of a string literal.

## Theorems

* `toInt32_of_inInt32`: Narrowing a value that fits leaves it alone.
* `inInt32_toInt32`: A narrowed value fits.
* `toUInt32_of_nonneg`: A non-negative `int` converts to itself.
* `tmod_cases`: The remainder of C against the one that is never negative.
-/

namespace LocalKeyValue

namespace CInt

/-- Conversion to `int32_t`. -/
def toInt32 (x : Int) : Int :=
  x.bmod (2 ^ 32)

/-- Conversion to `uint32_t`. -/
def toUInt32 (x : Int) : Nat :=
  (x % 2 ^ 32).toNat

/-- The value is one an `int32_t` can hold. -/
def InInt32 (x : Int) : Prop :=
  -2 ^ 31 ≤ x ∧ x < 2 ^ 31

instance (x : Int) : Decidable (InInt32 x) :=
  inferInstanceAs (Decidable (_ ∧ _))

theorem toInt32_of_inInt32 (x : Int) (h : InInt32 x) : toInt32 x = x := by
  rcases h with ⟨hlo, hhi⟩
  rw [toInt32]
  exact Int.bmod_eq_of_le (by omega) (by omega)

theorem inInt32_toInt32 (x : Int) : InInt32 (toInt32 x) := by
  have hlo := @Int.le_bmod x (2 ^ 32) (by decide)
  have hhi := @Int.bmod_lt x (2 ^ 32) (by decide)
  simp only [InInt32, toInt32]
  omega

theorem toUInt32_of_nonneg (x : Int) (h0 : 0 ≤ x) (h : x < 2 ^ 32) : toUInt32 x = x.toNat := by
  rw [toUInt32, Int.emod_eq_of_lt h0 h]

/-- The remainder of C is the non-negative one, but for a negative left operand
    that the right one does not divide. -/
theorem tmod_cases (a b : Int) (hb : 0 < b) :
    ((0 ≤ a ∨ b ∣ a) ∧ a.tmod b = a % b) ∨ (¬ (0 ≤ a ∨ b ∣ a) ∧ a.tmod b = a % b - b) := by
  rw [Int.tmod_eq_emod]
  by_cases h : 0 ≤ a ∨ b ∣ a
  · exact Or.inl ⟨h, by rw [if_pos h]; omega⟩
  · exact Or.inr ⟨h, by rw [if_neg h]; omega⟩

/-- The bytes of a string literal, with the NUL that ends it. -/
def cString (s : String) : List (BitVec 8) :=
  s.toList.map (fun c => BitVec.ofNat 8 c.toNat) ++ [0]

end CInt

end LocalKeyValue
