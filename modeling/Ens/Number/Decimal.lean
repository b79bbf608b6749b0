import Mathlib.Algebra.Order.Field.Power
import Mathlib.Data.List.DropRight
import Mathlib.Data.Rat.Cast.Order
import Mathlib.Tactic.Linarith
import Mathlib.Tactic.NormNum
import Mathlib.Tactic.Ring

/-! # Decimal digits as magnitudes

Digits from the most significant one, and a decimal point. Cutting digits off the end loses no
comparison with a multiple of a power of two that the digits left have room for.
-/
namespace Ens.Decimal
variable {l l' : List ℕ} {point k s : ℤ} {H T : ℚ} {b : ℕ}

def number (l : List ℕ) : ℕ := l.foldl (fun n d => n * 10 + d) 0

/-- The magnitude `0.l * 10 ^ point`. -/
def magnitude (l : List ℕ) (point : ℤ) : ℚ := number l * 10 ^ (point - l.length)

/-- Decimal digits. -/
def AreDigits (l : List ℕ) : Prop := ∀ d ∈ l, d < 10

@[simp] theorem number_nil : number [] = 0 := rfl

theorem foldl_number (l : List ℕ) (a : ℕ) :
    l.foldl (fun n d => n * 10 + d) a = a * 10 ^ l.length + number l := by
  induction l generalizing a with
  | nil => simp
  | cons d l ih =>
    rw [number,List.foldl_cons,List.foldl_cons,ih,ih (0 * 10 + d),List.length_cons]
    ring

theorem number_append (l l' : List ℕ) : number (l ++ l') = number l * 10 ^ l'.length + number l' := by
  rw [number,List.foldl_append,foldl_number]
  rfl

theorem number_cons (d : ℕ) (l : List ℕ) : number (d :: l) = d * 10 ^ l.length + number l := by
  rw [← List.singleton_append,number_append]
  simp [number]

theorem number_concat (l : List ℕ) (d : ℕ) : number (l ++ [d]) = number l * 10 + d := by
  rw [number_append]
  simp [number]

theorem number_replicate (n : ℕ) : number (List.replicate n 0) = 0 := by
  induction n with
  | zero => rfl
  | succ n ih => rw [List.replicate_succ,number_cons,ih]; simp

theorem number_lt (h : AreDigits l) : number l < 10 ^ l.length := by
  induction l with
  | nil => simp
  | cons d l ih =>
    have h1 := ih fun x hx => h x (List.mem_cons_of_mem _ hx)
    have h2 := h d (List.mem_cons_self ..)
    rw [number_cons,List.length_cons,pow_succ]
    have : d * 10 ^ l.length ≤ 9 * 10 ^ l.length := Nat.mul_le_mul_right _ (by omega)
    omega

theorem number_eq_zero (h : ∀ d ∈ l, d = 0) : number l = 0 := by
  rw [List.eq_replicate_iff.mpr ⟨rfl,h⟩]
  exact number_replicate _

theorem number_pos {d : ℕ} (hd : d ∈ l) (h0 : d ≠ 0) : 0 < number l := by
  induction l with
  | nil => cases hd
  | cons e l ih =>
    rw [number_cons]
    rcases List.mem_cons.mp hd with rfl | hd
    · exact Nat.add_pos_left (Nat.mul_pos (Nat.pos_of_ne_zero h0) (Nat.pos_of_ne_zero (by positivity))) _
    · exact Nat.add_pos_right _ (ih hd)

theorem ten_pow_pos (k : ℤ) : (0 : ℚ) < 10 ^ k := zpow_pos (by norm_num) k

theorem ten_pow_le {k l : ℤ} (h : k ≤ l) : (10 : ℚ) ^ k ≤ 10 ^ l := zpow_le_zpow_right₀ (by norm_num) h

theorem magnitude_nonneg (l : List ℕ) (point : ℤ) : 0 ≤ magnitude l point := by
  have := ten_pow_pos (point - l.length)
  unfold magnitude
  positivity

theorem magnitude_append (l l' : List ℕ) (point : ℤ) :
    magnitude (l ++ l') point = magnitude l point + magnitude l' (point - l.length) := by
  unfold magnitude
  rw [number_append,List.length_append]
  push_cast
  have h : point - (l.length : ℤ) = (l'.length : ℤ) + (point - (l.length + l'.length)) := by ring
  rw [add_mul,mul_assoc,← zpow_natCast (10 : ℚ) l'.length,← zpow_add₀ (by norm_num),← h,sub_sub]

theorem magnitude_zeros (n : ℕ) (point : ℤ) : magnitude (List.replicate n 0) point = 0 := by
  simp [magnitude,number_replicate]

theorem magnitude_zeros_append (n : ℕ) (l : List ℕ) (point : ℤ) :
    magnitude (List.replicate n 0 ++ l) point = magnitude l (point - n) := by
  rw [magnitude_append,magnitude_zeros,zero_add,List.length_replicate]

theorem magnitude_append_zeros (l : List ℕ) (n : ℕ) (point : ℤ) :
    magnitude (l ++ List.replicate n 0) point = magnitude l point := by
  rw [magnitude_append,magnitude_zeros,add_zero]

theorem magnitude_lt (h : AreDigits l) (point : ℤ) : magnitude l point < 10 ^ point := by
  have h1 : (number l : ℚ) < 10 ^ l.length := by exact_mod_cast number_lt h
  have h2 : (10 : ℚ) ^ point = 10 ^ l.length * 10 ^ (point - l.length) := by
    rw [← zpow_natCast,← zpow_add₀ (by norm_num)]
    congr 1
    ring
  rw [magnitude,h2]
  exact mul_lt_mul_of_pos_right h1 (ten_pow_pos _)

theorem magnitude_ge {d : ℕ} (h0 : d ≠ 0) (point : ℤ) : (10 : ℚ) ^ (point - 1) ≤ magnitude (d :: l) point := by
  have h1 : (10 : ℚ) ^ l.length ≤ number (d :: l) := by
    have : 10 ^ l.length ≤ number (d :: l) := by
      rw [number_cons]
      have := Nat.mul_le_mul_right (10 ^ l.length) (Nat.pos_of_ne_zero h0)
      omega
    exact_mod_cast this
  have h2 : (10 : ℚ) ^ (point - 1) = 10 ^ l.length * 10 ^ (point - (d :: l).length) := by
    rw [← zpow_natCast,← zpow_add₀ (by norm_num)]
    congr 1
    rw [List.length_cons]
    push_cast
    ring
  rw [magnitude,h2]
  exact mul_le_mul_of_nonneg_right h1 (ten_pow_pos _).le

theorem magnitude_pos {d : ℕ} (h0 : d ≠ 0) (point : ℤ) : 0 < magnitude (d :: l) point :=
  (ten_pow_pos _).trans_le (magnitude_ge h0 point)

/-! ### Zeros at the ends -/

theorem takeWhile_zeros (l : List ℕ) : l.takeWhile (fun x => decide (x = 0)) =
    List.replicate (l.takeWhile fun x => decide (x = 0)).length 0 :=
  List.eq_replicate_iff.mpr ⟨rfl,fun d hd => by simpa using List.mem_takeWhile_imp hd⟩

theorem zeros_split (l : List ℕ) : l = List.replicate (l.takeWhile fun x => decide (x = 0)).length 0 ++
    l.dropWhile fun x => decide (x = 0) := by
  rw [← takeWhile_zeros,List.takeWhile_append_dropWhile]

theorem rdropWhile_split (l : List ℕ) :
    ∃ n, l = l.rdropWhile (fun x => decide (x = 0)) ++ List.replicate n 0 := by
  refine ⟨(l.reverse.takeWhile fun x => decide (x = 0)).length,?_⟩
  have h := congrArg List.reverse (List.takeWhile_append_dropWhile (p := fun x => decide (x = 0)) (l := l.reverse))
  rw [List.reverse_append,List.reverse_reverse,takeWhile_zeros,List.reverse_replicate] at h
  exact h.symm

/-! ### Multiples of a power of two -/

/-- The multiples of `2 ^ -(s + 1)` up to two magnitudes are the same: at a scale of `2 ^ s` they
are on one side of every integer and of every half. -/
def Same (s : ℤ) (H T : ℚ) : Prop := ∀ n : ℕ, (n : ℚ) ≤ T * 2 ^ (s + 1) → (n : ℚ) ≤ H * 2 ^ (s + 1)

theorem same_refl (s : ℤ) (T : ℚ) : Same s T T := fun _ => id

theorem Same.scale (h : Same s H T) (b : ℤ) : Same (s - b) (H * 2 ^ b) (T * 2 ^ b) := by
  have hb : (2 : ℚ) ^ (s + 1) = 2 ^ b * 2 ^ (s - b + 1) := by
    rw [← zpow_add₀ (by norm_num)]
    congr 1
    ring
  intro n hn
  have := h n (by rwa [hb,← mul_assoc])
  rwa [hb,← mul_assoc] at this

/-- Cutting at a decimal place with room for the scale keeps the comparisons. -/
theorem Same.cut (h : Same s H T) {m : ℕ} (hk : 0 ≤ k) (hs : s + 1 ≤ k)
    (hm : H < (m + 1 : ℕ) * 10 ^ (-k)) : Same s (m * 10 ^ (-k)) T := by
  intro n hn
  have hn' := h n hn
  -- In units of the place, a multiple of the power of two is an integer.
  set N := n * (5 ^ k.toNat * 2 ^ (k - (s + 1)).toNat)
  have hunit : (n : ℚ) = N * 10 ^ (-k) * 2 ^ (s + 1) := by
    have h10 : (10 : ℚ) ^ (-k) = 5 ^ (-k) * 2 ^ (-k) := by
      rw [← mul_zpow]
      norm_num
    have h5 : ((5 : ℚ) ^ k.toNat) = 5 ^ k := by rw [← zpow_natCast,Int.toNat_of_nonneg hk]
    have h2 : ((2 : ℚ) ^ (k - (s + 1)).toNat) = 2 ^ (k - (s + 1)) := by
      rw [← zpow_natCast,Int.toNat_of_nonneg (by omega)]
    have e5 : (5 : ℚ) ^ k * 5 ^ (-k) = 1 := by rw [← zpow_add₀ (by norm_num),add_neg_cancel,zpow_zero]
    have e2 : (2 : ℚ) ^ (k - (s + 1)) * 2 ^ (-k) * 2 ^ (s + 1) = 1 := by
      rw [← zpow_add₀ (by norm_num),← zpow_add₀ (by norm_num)]
      rw [show k - (s + 1) + -k + (s + 1) = 0 by ring,zpow_zero]
    push_cast [N]
    rw [h5,h2,h10]
    calc (n : ℚ) = n * (5 ^ k * 5 ^ (-k)) * (2 ^ (k - (s + 1)) * 2 ^ (-k) * 2 ^ (s + 1)) := by rw [e5,e2]; ring
      _ = _ := by ring
  have h2pos : (0 : ℚ) < 2 ^ (s + 1) := zpow_pos (by norm_num) _
  have h10pos := ten_pow_pos (-k)
  rw [hunit] at hn' ⊢
  have h1 : (N : ℚ) * 10 ^ (-k) ≤ H := le_of_mul_le_mul_right hn' h2pos
  have h2 : (N : ℚ) < (m + 1 : ℕ) := lt_of_mul_lt_mul_right (h1.trans_lt hm) h10pos.le
  have h3 : N ≤ m := Nat.lt_succ_iff.mp (by exact_mod_cast h2)
  gcongr

end Ens.Decimal
