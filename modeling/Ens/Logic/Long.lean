import Mathlib.Data.Int.DivMod
import Mathlib.Tactic.NormNum

/-! # Integers of 64 bits

An operation on two longs gives the long its exact result is congruent to.
-/
namespace Ens.Long
variable {x : ℤ}

def wrap (x : ℤ) : ℤ := x.bmod (2 ^ 64)

def Fits (x : ℤ) : Prop := -2 ^ 63 ≤ x ∧ x < 2 ^ 63

instance : Decidable (Fits x) := inferInstanceAs (Decidable (_ ∧ _))

theorem wrap_eq (h : Fits x) : wrap x = x := by
  obtain ⟨hl,hr⟩ := h
  apply Int.bmod_eq_of_le_mul_two <;> norm_num <;> omega

theorem fits_wrap (x : ℤ) : Fits (wrap x) := by
  have hl := Int.le_bmod (x := x) (m := 2 ^ 64) (by norm_num)
  have hr := Int.bmod_lt (x := x) (m := 2 ^ 64) (by norm_num)
  rw [Fits,wrap]
  norm_num at hl hr ⊢
  omega

end Ens.Long
