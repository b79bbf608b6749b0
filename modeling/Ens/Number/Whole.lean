import Ens.Number.Shift
import Mathlib.Data.List.GetD

/-! # The rounded integer

What the digits past the point decide: the integer is the one nearest to what the buffer stands
for, the even one of two, though the buffer itself may be a shade low.
-/
namespace Ens.Number
open Decimal Rounding
variable {d : Digits} {T : ℚ} {s : ℤ} {n W : ℕ}

namespace Digits

/-! ### One side of a half -/

theorem roundsTo_below (h : Follows d T 0) (h1 : W ≤ d.value) (h2 : d.value < W + 1 / 2) : RoundsTo T W := by
  have hT : T < W + 1 / 2 := by
    by_contra hge
    have := h.same (2 * W + 1) (by push_cast; linarith)
    push_cast at this
    linarith
  have hdist : |(W : ℚ) - T| = T - W := by
    rw [abs_sub_comm,abs_of_nonneg]
    linarith [h.le]
  rw [RoundsTo,hdist]
  exact ⟨by linarith,fun he => absurd he (by linarith)⟩

theorem roundsTo_above (h : Follows d T 0) (h1 : (W : ℚ) + 1 / 2 < T) (h2 : d.value < W + 1) : RoundsTo T (W + 1) := by
  have hT : T < W + 1 := by
    by_contra hge
    have := h.same (2 * (W + 1)) (by push_cast; linarith)
    push_cast at this
    linarith
  have hdist : |((W + 1 : ℕ) : ℚ) - T| = W + 1 - T := by
    push_cast
    rw [abs_of_nonneg]
    linarith
  rw [RoundsTo,hdist]
  exact ⟨by linarith,fun he => absurd he (by linarith)⟩

theorem roundsTo_half (hT : T = W + 1 / 2) (hn : n = W ∨ n = W + 1) (he : Even n) : RoundsTo T n := by
  have hdist : |(n : ℚ) - T| = 1 / 2 := by
    rcases hn with rfl | rfl <;> rw [hT] <;> push_cast <;> rw [abs_eq (by norm_num)] <;> [right; left] <;> ring
  exact ⟨hdist.le,fun _ => he⟩

/-! ### The integer and the fraction -/

def front (d : Digits) : List ℕ := (List.range d.point.toNat).map fun i : ℕ => d.digit i

theorem front_number (d : Digits) :
    (List.range d.point.toNat).foldl (fun (whole i : ℕ) => whole * 10 + d.digit i) 0 = number d.front := by
  rw [front,number,List.foldl_map]

theorem digit_natCast (d : Digits) (i : ℕ) : d.digit i = d.held.getD i 0 := by
  simp [digit]

theorem front_take (d : Digits) :
    d.front = (d.held ++ List.replicate d.point.toNat 0).take d.point.toNat := by
  apply List.ext_getElem
  · simp [front]
  · intro i h1 h2
    simp only [front,List.getElem_map,List.getElem_range,List.getElem_take,digit_natCast]
    by_cases hi : i < d.held.length
    · rw [List.getElem_append_left hi,List.getD_eq_getElem _ _ hi]
    · rw [List.getElem_append_right (by omega),List.getElem_replicate,List.getD_eq_default _ _ (by omega)]

theorem value_split (h : 0 ≤ d.point) :
    d.value = number d.front + magnitude (d.held.drop d.point.toNat) 0 := by
  have hlen : (((d.held ++ List.replicate d.point.toNat 0).take d.point.toNat).length : ℤ) = d.point := by
    rw [List.length_take,List.length_append,List.length_replicate]
    omega
  have hdrop : magnitude ((d.held ++ List.replicate d.point.toNat 0).drop d.point.toNat) 0
      = magnitude (d.held.drop d.point.toNat) 0 := by
    rw [List.drop_append,List.drop_replicate,magnitude_append_zeros]
  rw [value,← magnitude_append_zeros _ d.point.toNat,
    ← List.take_append_drop d.point.toNat (d.held ++ List.replicate d.point.toNat 0),magnitude_append,hlen,sub_self,
    hdrop,front_take,magnitude,hlen,sub_self,zpow_zero,mul_one]

theorem front_parity (h : 0 < d.point) : number d.front % 2 = d.digit (d.point - 1) % 2 := by
  obtain ⟨m,hm⟩ : ∃ m, d.point.toNat = m + 1 := ⟨d.point.toNat - 1,by omega⟩
  have hlast : ((m : ℕ) : ℤ) = d.point - 1 := by omega
  rw [front,hm,List.range_succ,List.map_append,List.map_singleton,number_concat,hlast]
  omega

theorem magnitude_cons_zero (x : ℕ) (l : List ℕ) : magnitude (x :: l) 0 = x / 10 + magnitude l (-1) := by
  rw [← List.singleton_append,magnitude_append]
  simp [magnitude,number]
  ring

theorem roundedInteger_rounds (h : Tracks d T 0) : RoundsTo T d.roundedInteger := by
  have hf := h.toFollows
  rw [roundedInteger,front_number,roundsUp]
  by_cases hneg : d.point < 0
  · -- Less than a tenth.
    have hfront : d.front = [] := by
      rw [front,Int.toNat_of_nonpos hneg.le]
      rfl
    rw [if_pos hneg,if_neg (by decide),hfront]
    apply roundsTo_below hf
    · simpa using hf.pos.le
    · have h1 : (10 : ℚ) ^ d.point ≤ 10 ^ (-1 : ℤ) := ten_pow_le (by omega)
      have h2 := h.lt
      norm_num at h1 ⊢
      linarith
  · rw [if_neg hneg]
    have hsplit := value_split (not_lt.mp hneg)
    have hdigit : d.digit d.point = (d.held.drop d.point.toNat).getD 0 0 := by
      simp [digit,hneg]
    have hrest : d.held.drop (d.point.toNat + 1) = (d.held.drop d.point.toNat).tail := by
      rw [List.tail_drop]
    have hsmall : AreDigits (d.held.drop d.point.toNat) := fun x hx => h.small x (List.mem_of_mem_drop hx)
    rw [hdigit,hrest]
    have hlt := magnitude_lt hsmall 0
    rw [zpow_zero] at hlt
    revert hsplit hsmall hlt
    generalize d.held.drop d.point.toNat = l
    intro hsplit hsmall hlt
    have hW : (number d.front : ℚ) ≤ d.value := by
      rw [hsplit]
      linarith [magnitude_nonneg l 0]
    cases l with
    | nil =>
      rw [List.getD_nil,if_neg (show ¬5 < 0 by omega),if_pos (show 0 < 5 by omega),if_neg (by decide)]
      apply roundsTo_below hf hW
      rw [hsplit]
      norm_num [magnitude]
    | cons x l =>
      rw [List.getD_cons_zero,List.tail_cons]
      have hx := magnitude_cons_zero x l
      have hl0 := magnitude_nonneg l (-1)
      have hl1 := magnitude_lt (fun y hy => hsmall y (List.mem_cons_of_mem _ hy)) (-1)
      norm_num at hl1
      rcases lt_trichotomy x 5 with hx5 | rfl | hx5
      · rw [if_neg hx5.not_gt,if_pos hx5,if_neg (by decide)]
        apply roundsTo_below hf hW
        have : (x : ℚ) ≤ 4 := by exact_mod_cast Nat.lt_succ_iff.mp hx5
        linarith
      · rw [if_neg (lt_irrefl 5),if_neg (lt_irrefl 5)]
        by_cases hany : (l.any fun x => decide (x ≠ 0)) = true
        · rw [if_pos hany,if_pos rfl]
          obtain ⟨y,hy,hy0⟩ := List.any_eq_true.mp hany
          have hpos := number_pos hy (by simpa using hy0)
          have : 0 < magnitude l (-1) := by
            have := ten_pow_pos (-1 - l.length)
            unfold magnitude
            positivity
          apply roundsTo_above hf _ (by linarith)
          have := h.le
          push_cast at hx
          linarith
        · rw [if_neg hany]
          have hzero : magnitude l (-1) = 0 := by
            rw [magnitude,number_eq_zero fun y hy => by
              by_contra hy0
              exact hany (List.any_eq_true.mpr ⟨y,hy,by simpa using hy0⟩)]
            simp
          push_cast at hx
          have hhalf : d.value = number d.front + 1 / 2 := by linarith
          by_cases htr : d.truncated = true
          · rw [if_pos htr,if_pos rfl]
            exact roundsTo_above hf (hhalf ▸ h.flag.mp htr) (by linarith)
          · rw [if_neg htr]
            have hT : T = number d.front + 1 / 2 := by
              rw [← hhalf]
              exact le_antisymm (not_lt.mp fun hlt => htr (h.flag.mpr hlt)) h.le
            by_cases hpoint : d.point ≤ 0
            · have hfront : d.front = [] := by
                rw [front,Int.toNat_of_nonpos hpoint]
                rfl
              rw [if_pos hpoint,if_neg (by decide)]
              exact roundsTo_half hT (.inl rfl) (by simp [hfront])
            · rw [if_neg hpoint]
              have hpar := front_parity (not_le.mp hpoint)
              by_cases hodd : d.digit (d.point - 1) % 2 = 1
              · rw [if_pos (decide_eq_true hodd)]
                exact roundsTo_half hT (.inr rfl) (by rw [Nat.even_iff]; omega)
              · rw [if_neg (mt of_decide_eq_true hodd)]
                exact roundsTo_half hT (.inl rfl) (by rw [Nat.even_iff]; omega)
      · rw [if_pos hx5,if_pos rfl]
        have : (6 : ℚ) ≤ x := by exact_mod_cast hx5
        apply roundsTo_above hf _ (by linarith)
        have := h.le
        linarith

end Digits
end Ens.Number
