import Ens.Number.Parse
import Ens.Number.Whole
import Mathlib.Algebra.Order.AddGroupWithTop

/-! # The magnitude the digits have

The digits are shifted below one, then up to a half, and then by the bits the mantissa has. At
every shift what the buffer stands for has room for the integer it is rounded to in the end, so the
one rounding there is the rounding of the decimal value.
-/
set_option linter.all false
namespace Ens.Number
open Loop Decimal Rounding
variable {d : Digits} {T : ℚ} {S s e : ℤ} {q : ℤ}

/-- What is nearest to a magnitude among the doubles, the infinity above all. -/
def NearestDouble (v : ℚ) (r : WithTop ℚ) : Prop :=
  ∃ x, Nearest Bounds.mantissaBits Bounds.smallestSubnormal v x ∧ r = if x < 2 ^ Bounds.largest then (x : WithTop ℚ) else ⊤

/-- The double a mantissa scaled by a power of two is, the product overflowing to the infinity. -/
def Magnitude.denote : Magnitude → WithTop ℚ
  | .infinity => ⊤
  | .scaled value exponent =>
    if (value * 2 ^ exponent : ℚ) < 2 ^ Bounds.largest then ((value * 2 ^ exponent : ℚ) : WithTop ℚ) else ⊤

/-! ### The scale of the mantissa -/

structure Scale (T : ℚ) (S : ℤ) : Prop where
  pos : 0 < T
  below : T * 2 ^ S < 2 ^ (53 : ℤ)
  least : S ≤ 1074
  full : 2 ^ (52 : ℤ) ≤ T * 2 ^ S ∨ S = 1074

theorem exists_scale (h : 0 < T) : ∃ S, Scale T S := by
  have h1 := Int.zpow_log_le_self (b := 2) (by omega) h
  have h2 := Int.lt_zpow_succ_log_self (b := 2) (by omega) T
  push_cast at h1 h2
  set L := Int.log 2 T
  refine ⟨min 1074 (52 - L),h,?_,min_le_left _ _,?_⟩
  · have hS := two_pow_le (min_le_right 1074 (52 - L))
    calc T * 2 ^ min 1074 (52 - L) ≤ T * 2 ^ (52 - L) := mul_le_mul_of_nonneg_left hS h.le
      _ < 2 ^ (L + 1) * 2 ^ (52 - L) := mul_lt_mul_of_pos_right h2 (two_pow_pos _)
      _ = 2 ^ (53 : ℤ) := by rw [← zpow_add₀ (by norm_num)]; congr 1; ring
  · by_cases hL : 52 - L ≤ 1074
    · left
      rw [min_eq_right hL]
      calc (2 : ℚ) ^ (52 : ℤ) = 2 ^ L * 2 ^ (52 - L) := by rw [← zpow_add₀ (by norm_num)]; congr 1; ring
        _ ≤ T * 2 ^ (52 - L) := mul_le_mul_of_nonneg_right h1 (two_pow_pos _).le
    · exact .inr (min_eq_left (by omega))

theorem two_pow_lt_iff {k l : ℤ} : (2 : ℚ) ^ k < 2 ^ l ↔ k < l := zpow_lt_zpow_iff_right₀ (by norm_num)

theorem ten_pow_lt_iff {k l : ℤ} : (10 : ℚ) ^ k < 10 ^ l ↔ k < l := zpow_lt_zpow_iff_right₀ (by norm_num)

theorem two_le_ten {k : ℤ} (h : 0 ≤ k) : (2 : ℚ) ^ (3 * k) ≤ 10 ^ k := by
  rw [zpow_mul]
  exact zpow_le_zpow_left₀ h (by norm_num) (by norm_num)

theorem ten_le_two {k : ℤ} (h : 0 ≤ k) : (10 : ℚ) ^ (3 * k) ≤ 2 ^ (10 * k) := by
  rw [zpow_mul,zpow_mul]
  exact zpow_le_zpow_left₀ h (by norm_num) (by norm_num)

/-- A leading digit that a mantissa bit still reaches leaves room in the buffer. -/
theorem room (hs : s ≤ 1074) (h : (10 : ℚ) ^ (q - 1) * 2 ^ s < 2 ^ (53 : ℤ)) : q + s + 1 ≤ 780 := by
  rcases le_total 0 (q - 1) with hq | hq
  · have h1 := mul_le_mul_of_nonneg_right (two_le_ten hq) (two_pow_pos s).le
    rw [← zpow_add₀ (by norm_num)] at h1
    have := two_pow_lt_iff.mp (h1.trans_lt h)
    omega
  · -- Three times the exponents, so that ten bits stand against three digits.
    have h1 := ten_le_two (k := -(q - 1)) (by omega)
    have h2 : ((10 : ℚ) ^ (q - 1) * 2 ^ s) ^ 3 < (2 ^ (53 : ℤ)) ^ 3 :=
      pow_lt_pow_left₀ h (by positivity) (by norm_num)
    rw [mul_pow,← zpow_natCast,← zpow_natCast,← zpow_natCast,← zpow_mul,← zpow_mul,← zpow_mul] at h2
    have h3 : (10 : ℚ) ^ (3 * -(q - 1)) * 10 ^ ((q - 1) * (3 : ℕ)) = 1 := by
      rw [← zpow_add₀ (by norm_num)]
      norm_num
      ring_nf
      norm_num
    have h4 : (2 : ℚ) ^ (s * (3 : ℕ)) < 2 ^ (53 * (3 : ℕ) + 10 * -(q - 1) : ℤ) := by
      calc (2 : ℚ) ^ (s * (3 : ℕ)) = 10 ^ (3 * -(q - 1)) * (10 ^ ((q - 1) * (3 : ℕ)) * 2 ^ (s * (3 : ℕ))) := by
            rw [← mul_assoc,h3,one_mul]
        _ < 10 ^ (3 * -(q - 1)) * 2 ^ (53 * (3 : ℕ) : ℤ) := mul_lt_mul_of_pos_left h2 (ten_pow_pos _)
        _ ≤ 2 ^ (10 * -(q - 1)) * 2 ^ (53 * (3 : ℕ) : ℤ) := mul_le_mul_of_nonneg_right h1 (two_pow_pos _).le
        _ = _ := by rw [← zpow_add₀ (by norm_num),add_comm]
    have := two_pow_lt_iff.mp h4
    omega

namespace Digits

/-! ### Points and values -/

theorem Tracks.point_le (h : Tracks d T s) (hv : d.value < 10 ^ q) : d.point ≤ q := by
  have := ten_pow_lt_iff.mp (h.ge.trans_lt hv)
  omega

theorem Tracks.atLeastOne (h : Tracks d T s) : d.atLeastOne = decide (0 < d.point) := by
  obtain ⟨x,l,hd,-⟩ := h.cons
  simp [Digits.atLeastOne,count,hd]

theorem Tracks.belowHalf (h : Tracks d T s) (hp : d.point ≤ 0) : d.belowHalf = true ↔ d.value < 1 / 2 := by
  obtain ⟨x,l,hd,hx⟩ := h.cons
  have h0 : d.digit 0 = x := by simp [digit,hd]
  have hl : AreDigits l := fun y hy => h.small y (by rw [hd]; exact List.mem_cons_of_mem _ hy)
  rw [Digits.belowHalf,if_neg (by simp [count,hd]),if_neg hp.not_gt,h0]
  rcases hp.lt_or_eq with hlt | heq
  · rw [if_pos hlt]
    refine iff_of_true rfl (h.lt.trans_le ?_)
    have := ten_pow_le (show d.point ≤ -1 by omega)
    norm_num at this ⊢
    linarith
  · rw [if_neg (by omega),decide_eq_true_iff,value,hd,heq,magnitude_cons_zero]
    have h1 := magnitude_nonneg l (-1)
    have h2 := magnitude_lt hl (-1)
    norm_num at h2
    constructor
    · intro hx5
      have : (x : ℚ) ≤ 4 := by exact_mod_cast Nat.lt_succ_iff.mp hx5
      linarith
    · intro hv
      have : (x : ℚ) < 5 := by linarith
      exact_mod_cast this

structure Scaled (T : ℚ) (S : ℤ) (d : Digits) (e : ℤ) : Prop where
  tracks : Tracks d (T * 2 ^ (-e)) (S + e)
  least : S + e ≤ 1074

theorem Scaled.below (h : Scaled T S d e) (hT : Scale T S) : d.value * 2 ^ (S + e) < 2 ^ (53 : ℤ) := by
  have h1 := mul_le_mul_of_nonneg_right h.tracks.le (two_pow_pos (S + e)).le
  have h2 : T * 2 ^ (-e) * 2 ^ (S + e) = T * 2 ^ S := by
    rw [mul_assoc,← zpow_add₀ (by norm_num),show -e + (S + e) = S by ring]
  exact (h1.trans_eq h2).trans_lt hT.below

theorem Scaled.room (h : Scaled T S d e) (hT : Scale T S) : d.point + (S + e) + 1 ≤ 780 :=
  Number.room h.least ((mul_le_mul_of_nonneg_right h.tracks.ge (two_pow_pos _).le).trans_lt (h.below hT))

theorem Scaled.left (h : Scaled T S d e) (hT : Scale T S) {bits : ℕ} (hbits : bits ≤ Bounds.shiftBits)
    (hpoint : d.point ≤ 780) : Scaled T S (d.shiftLeft bits) (e - bits) ∧
      (d.shiftLeft bits).value ≤ d.value * 2 ^ (bits : ℤ) ∧
      d.value * (3 / 4) * 2 ^ (bits : ℤ) ≤ (d.shiftLeft bits).value := by
  obtain ⟨h1,h2⟩ := shiftLeft_tracks h.tracks hbits ⟨hpoint,h.room hT⟩
  rw [mul_assoc,← zpow_add₀ (by norm_num),show -e + (bits : ℤ) = -(e - bits) by ring,
    show S + e - bits = S + (e - bits) by ring] at h1
  exact ⟨⟨h1,by have := h.least; omega⟩,h2⟩

theorem Scaled.right (h : Scaled T S d e) (hT : Scale T S) {bits : ℕ} (hpoint : d.point ≤ 779)
    (hleast : S + e + bits ≤ 1074) : ∃ d', d.shiftRight bits = .ok d' ∧ Scaled T S d' (e + bits) ∧
      d'.value ≤ d.value * 2 ^ (-(bits : ℤ)) ∧ d.value * 2 ^ (-(bits : ℤ)) ≤ d'.value * 2 := by
  have hv := h.tracks.pos
  have hle : d.value * 2 ^ (-(bits : ℤ)) ≤ d.value :=
    mul_le_of_le_one_right hv.le (zpow_le_one_of_nonpos₀ (by norm_num) (by omega))
  have hroom (q : ℤ) (hq : (10 : ℚ) ^ (q - 1) ≤ d.value * 2 ^ (-(bits : ℤ))) : q ≤ 780 ∧ q + (S + e + bits) + 1 ≤ 780 := by
    refine ⟨?_,Number.room (by omega) ?_⟩
    · have := ten_pow_lt_iff.mp (hq.trans_lt (hle.trans_lt h.tracks.lt))
      omega
    · calc (10 : ℚ) ^ (q - 1) * 2 ^ (S + e + bits) ≤ d.value * 2 ^ (-(bits : ℤ)) * 2 ^ (S + e + bits) :=
            mul_le_mul_of_nonneg_right hq (two_pow_pos _).le
        _ = d.value * 2 ^ (S + e) := by
            rw [mul_assoc,← zpow_add₀ (by norm_num)]
            congr 2
            ring
        _ < _ := h.below hT
  obtain ⟨d',h1,h2,h3⟩ := shiftRight_tracks h.tracks hroom
  rw [mul_assoc,← zpow_add₀ (by norm_num),show -e + -(bits : ℤ) = -(e + bits) by ring,add_assoc] at h2
  exact ⟨d',h1,⟨h2,by omega⟩,h3⟩

/-! ### Below one -/

theorem scaleDown_scaled (hT : Scale T S) (h : Tracks d T S) (hle : d.point ≤ 400) (hge : -400 ≤ d.point) :
    ∃ r : Digits × ℤ, scaleDown d 0 = .ok r ∧ Scaled T S r.1 r.2 ∧ r.1.point ≤ 0 ∧
      (10 : ℚ) ^ (-401 : ℤ) ≤ r.1.value ∧ 0 ≤ r.2 := by
  have hstart : Scaled T S d 0 := ⟨by simpa using h,by simpa using hT.least⟩
  have hsize : d.value < 2 ^ ((1340 : ℕ) : ℤ) := by
    have h1 : (10 : ℚ) ^ d.point ≤ 10 ^ (3 * 134 : ℤ) := ten_pow_le (by omega)
    have h2 : (10 : ℚ) ^ (3 * 134 : ℤ) ≤ 2 ^ (10 * 134 : ℤ) := ten_le_two (by norm_num)
    exact h.lt.trans_le (h1.trans h2)
  apply loop_within (n := 1340) (I := fun n (s : Digits × ℤ) => Scaled T S s.1 s.2 ∧ s.1.point ≤ 400 ∧
    (10 : ℚ) ^ (-401 : ℤ) ≤ s.1.value ∧ 0 ≤ s.2 ∧ s.1.value < 2 ^ (n : ℤ))
  · rintro n ⟨d,e⟩ ⟨hs,hp,hv,he,hn⟩
    dsimp only at hs hp hv he hn ⊢
    rw [hs.tracks.atLeastOne]
    by_cases hone : 0 < d.point
    · right
      rw [if_pos (decide_eq_true hone)]
      set bits := if Bounds.stridePoint ≤ d.point then Bounds.shiftBits else 1
      have hval : 1 ≤ d.value := by
        have := (ten_pow_le (show (0 : ℤ) ≤ d.point - 1 by omega)).trans hs.tracks.ge
        simpa using this
      have hbits : 1 ≤ bits := by unfold bits; split <;> simp [Bounds.shiftBits]
      have hbits' : bits ≤ 50 := by unfold bits; split <;> simp [Bounds.shiftBits]
      -- The digits in front of the point bound the scale that is left.
      have hleast : S + e + bits ≤ 1074 := by
        have h1 := hs.below hT
        have h2 : (2 : ℚ) ^ (S + e) ≤ d.value * 2 ^ (S + e) := le_mul_of_one_le_left (two_pow_pos _).le hval
        have := two_pow_lt_iff.mp (h2.trans_lt h1)
        omega
      obtain ⟨d',h1,h2,h3,h4⟩ := hs.right hT (by omega) hleast
      have hhalf : (2 : ℚ) ^ (-(bits : ℤ)) ≤ 2 ^ (-1 : ℤ) := two_pow_le (by omega)
      have hquot : d.value * 2 ^ (-(bits : ℤ)) ≤ d.value * 2 ^ (-1 : ℤ) :=
        mul_le_mul_of_nonneg_left hhalf (by linarith)
      have hsmaller : d'.value < 2 ^ ((n : ℤ) - 1) := by
        refine (h3.trans hquot).trans_lt ?_
        rw [sub_eq_add_neg,zpow_add₀ (by norm_num)]
        exact mul_lt_mul_of_pos_right hn (two_pow_pos _)
      have hn0 : n ≠ 0 := by
        rintro rfl
        norm_num at hn
        linarith
      refine ⟨(d',e + bits),n - 1,by rw [h1]; rfl,⟨h2,?_,?_,by dsimp only; omega,?_⟩,by omega⟩
      · refine (h2.tracks.point_le (q := d.point) ((h3.trans hquot).trans_lt ?_)).trans hp
        norm_num
        linarith [hs.tracks.lt]
      · have h5 : (2 : ℚ) ^ (-50 : ℤ) ≤ 2 ^ (-(bits : ℤ)) := two_pow_le (by omega)
        have h6 : (2 : ℚ) ^ (-(bits : ℤ)) ≤ d.value * 2 ^ (-(bits : ℤ)) := le_mul_of_one_le_left (two_pow_pos _).le hval
        have h7 : (10 : ℚ) ^ (-401 : ℤ) ≤ 10 ^ (-16 : ℤ) := ten_pow_le (by omega)
        have h8 : (10 : ℚ) ^ (-16 : ℤ) * 2 ≤ 2 ^ (-50 : ℤ) := by norm_num
        dsimp only
        linarith
      · dsimp only
        rwa [Nat.cast_sub (by omega),Nat.cast_one]
    · exact .inl ⟨(d,e),by rw [if_neg (by simpa using hone)],hs,not_lt.mp hone,hv,he⟩
  · exact ⟨hstart,hle,(ten_pow_le (by omega)).trans h.ge,le_refl _,hsize⟩
  · simp [rounds]

/-! ### Up to a half -/

theorem scaleUp_scaled (hT : Scale T S) (h : Scaled T S d e) (hp : d.point ≤ 0) (hv : (10 : ℚ) ^ (-401 : ℤ) ≤ d.value)
    (he : 0 ≤ e) : ∃ r : Digits × ℤ, scaleUp d e = .ok r ∧ Scaled T S r.1 r.2 ∧ r.1.point ≤ 0 ∧
      1 / 2 ≤ r.1.value ∧ -120300 ≤ r.2 := by
  -- A round makes the value half as large again at least, and takes at most fifty off the exponent.
  apply loop_within (n := 2406) (I := fun n (s : Digits × ℤ) => Scaled T S s.1 s.2 ∧ s.1.point ≤ 0 ∧
    1 / 2 ≤ s.1.value * (3 / 2) ^ n ∧ 50 * (n : ℤ) ≤ s.2 + 120300)
  · rintro n ⟨d,e⟩ ⟨hs,hp,hv,he⟩
    dsimp only at hs hp hv he ⊢
    by_cases hhalf : d.belowHalf = true
    · right
      rw [if_pos hhalf]
      rw [hs.tracks.belowHalf hp] at hhalf
      set bits := if d.point ≤ -Bounds.stridePoint then Bounds.shiftBits else 1 with hbits0
      have hbits : 1 ≤ bits := by unfold bits; split <;> simp [Bounds.shiftBits]
      have hbits' : bits ≤ 50 := by unfold bits; split <;> simp [Bounds.shiftBits]
      obtain ⟨h1,h2,h3⟩ := hs.left hT hbits' (by omega)
      have hone : d.value * 2 ^ (bits : ℤ) < 10 ^ (0 : ℤ) := by
        by_cases hfar : d.point ≤ -Bounds.stridePoint
        · have h4 := hs.tracks.lt.trans_le (ten_pow_le hfar)
          have h5 : (10 : ℚ) ^ (-Bounds.stridePoint) * 2 ^ (50 : ℤ) < 10 ^ (0 : ℤ) := by norm_num [Bounds.stridePoint]
          rw [hbits0,if_pos hfar]
          exact (mul_le_mul_of_nonneg_right h4.le (two_pow_pos _).le).trans_lt h5
        · rw [hbits0,if_neg hfar]
          norm_num
          linarith
      have htwo : (2 : ℚ) ≤ 2 ^ (bits : ℤ) := by
        have := two_pow_le (show (1 : ℤ) ≤ bits by omega)
        simpa using this
      have hn0 : n ≠ 0 := by
        rintro rfl
        norm_num at hv
        linarith
      have hvpos := hs.tracks.pos
      have hpoint := h1.tracks.point_le (h2.trans_lt hone)
      refine ⟨(d.shiftLeft bits,e - bits),n - 1,rfl,?_,by omega⟩
      dsimp only
      refine ⟨h1,hpoint,?_,?_⟩
      · have h4 : d.value * (3 / 2) ≤ (d.shiftLeft bits).value := by
          refine le_trans ?_ h3
          nlinarith
        calc (1 / 2 : ℚ) ≤ d.value * (3 / 2) ^ n := hv
          _ = d.value * (3 / 2) * (3 / 2) ^ (n - 1) := by
            rw [mul_assoc,← pow_succ',Nat.sub_add_cancel (by omega)]
          _ ≤ (d.shiftLeft bits).value * (3 / 2) ^ (n - 1) := mul_le_mul_of_nonneg_right h4 (by positivity)
      · omega
    · refine .inl ⟨(d,e),by rw [if_neg hhalf],hs,hp,?_,by dsimp only; omega⟩
      rw [hs.tracks.belowHalf hp] at hhalf
      exact not_lt.mp hhalf
  · refine ⟨h,hp,?_,by dsimp only; omega⟩
    have h1 : (10 : ℚ) ^ (401 : ℤ) ≤ (3 / 2) ^ 2406 := by
      rw [show 2406 = 6 * 401 by norm_num,pow_mul,show (401 : ℤ) = (401 : ℕ) by rfl,zpow_natCast]
      exact pow_le_pow_left₀ (by norm_num) (by norm_num) 401
    have h2 : (10 : ℚ) ^ (-401 : ℤ) * 10 ^ (401 : ℤ) = 1 := by
      rw [← zpow_add₀ (by norm_num)]
      norm_num
    have h3 := mul_le_mul hv h1 (ten_pow_pos _).le h.tracks.pos.le
    rw [h2] at h3
    exact le_trans (by norm_num) h3
  · simp [rounds]

/-! ### The mantissa -/

theorem mantissaUp_scaled (hT : Scale T S) {w : ℤ} (hw : 0 ≤ w) (hw' : w ≤ 53) (h : Scaled T S d (w - S)) :
    ∃ r : Digits × ℤ, loop Stop.endless mantissaUp rounds (d,w) = .ok r ∧ Scaled T S r.1 (0 - S) ∧ r.2 = 0 ∧
      r.1.point ≤ 16 := by
  have hpoint {d : Digits} {w : ℤ} (hw : 0 ≤ w) (hs : Scaled T S d (w - S)) : d.point ≤ 16 := by
    apply hs.tracks.point_le
    have h1 := hs.below hT
    have h2 : (1 : ℚ) ≤ 2 ^ (S + (w - S)) := by
      rw [add_sub_cancel]
      exact one_le_zpow₀ (by norm_num) hw
    have h3 : (2 : ℚ) ^ (53 : ℤ) < 10 ^ (16 : ℤ) := by norm_num
    exact ((le_mul_of_one_le_right hs.tracks.pos.le h2).trans_lt h1).trans h3
  apply loop_within (n := w.toNat) (I := fun n (s : Digits × ℤ) => s.2 = n ∧ Scaled T S s.1 (s.2 - S))
  · rintro n ⟨d,w⟩ ⟨rfl,hs⟩
    by_cases hw : (0 : ℤ) < n
    · right
      have hbits : min (n : ℤ).toNat Bounds.shiftBits = min n 50 := rfl
      have hwidth : min n 50 ≤ Bounds.shiftBits := min_le_right _ _
      obtain ⟨h1,-,-⟩ := hs.left hT hwidth ((hpoint hw.le hs).trans (by omega))
      refine ⟨(d.shiftLeft (min n 50),n - (min n 50 : ℕ)),n - min n 50,by rw [mantissaUp,if_pos hw,hbits],⟨?_,?_⟩,by omega⟩
      · dsimp only
        omega
      · rw [show (n : ℤ) - S - (min n 50 : ℕ) = n - (min n 50 : ℕ) - S by ring] at h1
        exact h1
    · have hn : (n : ℤ) = 0 := by omega
      refine .inl ⟨(d,n),by rw [mantissaUp,if_neg hw],?_,hn,hpoint (by omega) hs⟩
      rw [← hn]
      exact hs
  · exact ⟨(Int.toNat_of_nonneg hw).symm,h⟩
  · simp only [rounds]
    omega

theorem mantissaDown_scaled (hT : Scale T S) {w : ℤ} (hw : w ≤ 0) (hw' : -120000 ≤ w) (h : Scaled T S d (w - S))
    (hp : d.point ≤ 16) : ∃ r : Digits × ℤ, loop Stop.endless mantissaDown rounds (d,w) = .ok r ∧
      Scaled T S r.1 (0 - S) := by
  apply loop_within (n := ((-w).toNat + 49) / 50) (I := fun n (s : Digits × ℤ) => s.2 ≤ 0 ∧ ((-s.2).toNat + 49) / 50 ≤ n ∧
    Scaled T S s.1 (s.2 - S) ∧ s.1.point ≤ 16)
  · rintro n ⟨d,w⟩ ⟨hw,hn,hs,hp⟩
    dsimp only at hw hn hs hp
    by_cases hneg : w < 0
    · right
      set bits := min (-w).toNat Bounds.shiftBits with hbits0
      have hbits : bits = min (-w).toNat 50 := rfl
      have hleast : w - S + S + bits ≤ 1074 := by omega
      obtain ⟨d',h1,h2,h3,-⟩ := hs.right hT (by omega) (by rwa [add_comm S])
      have hle : d.value * 2 ^ (-(bits : ℤ)) ≤ d.value :=
        mul_le_of_le_one_right hs.tracks.pos.le (zpow_le_one_of_nonpos₀ (by norm_num) (by omega))
      rw [show w - S + (bits : ℤ) = w + bits - S by ring] at h2
      have hp' := (h2.tracks.point_le ((h3.trans hle).trans_lt hs.tracks.lt)).trans hp
      exact ⟨(d',w + bits),((-(w + bits)).toNat + 49) / 50,by simp only [mantissaDown,if_pos hneg,← hbits0,h1,ok_bind],
        ⟨by dsimp only; omega,le_refl _,h2,hp'⟩,by omega⟩
    · obtain rfl : w = 0 := by omega
      exact .inl ⟨(d,0),by rw [mantissaDown,if_neg hneg],hs⟩
  · exact ⟨hw,le_refl _,h,hp⟩
  · simp only [rounds]
    omega

theorem mantissa_eq {w : ℤ} {r r' : Digits × ℤ} (h : loop Stop.endless mantissaUp rounds (d,w) = .ok r)
    (h' : loop Stop.endless mantissaDown rounds r = .ok r') : mantissa d w = .ok r'.1.roundedInteger := by
  rw [mantissa,h,ok_bind]
  dsimp only
  rw [h',ok_bind]

/-- The width the exponent leaves brings the mantissa in front of the point, where it is rounded. -/
theorem mantissa_rounds (hT : Scale T S) (h : Scaled T S d e) (hp : d.point ≤ 0) (he : -120000 ≤ S + e)
    (hw : S + e ≤ 53) : ∃ m, mantissa d (S + e) = .ok m ∧ RoundsTo (T * 2 ^ S) m := by
  have hstart : Scaled T S d (S + e - S) := by rwa [add_sub_cancel_left]
  have hend {d : Digits} (h : Scaled T S d (0 - S)) : RoundsTo (T * 2 ^ S) d.roundedInteger := by
    have := h.tracks
    rw [add_sub_cancel,show -(0 - S) = S by ring] at this
    exact roundedInteger_rounds this
  rcases le_total 0 (S + e) with hle | hle
  · obtain ⟨⟨d',w⟩,h1,h2,rfl,h3⟩ := mantissaUp_scaled hT hle hw hstart
    obtain ⟨r,h4,h5⟩ := mantissaDown_scaled hT (le_refl 0) (by omega) h2 h3
    exact ⟨_,mantissa_eq h1 h4,hend h5⟩
  · obtain ⟨r,h4,h5⟩ := mantissaDown_scaled hT hle he hstart (by omega)
    have h1 : loop Stop.endless mantissaUp rounds (d,S + e) = .ok (d,S + e) :=
      loop_done (by rw [mantissaUp,if_neg hle.not_gt])
    exact ⟨_,mantissa_eq h1 h4,hend h5⟩

end Digits

/-! ### The double nearest -/

theorem denote_eq (m : ℕ) (e : ℤ) : (Magnitude.scaled m e).denote =
    if (m * 2 ^ e : ℚ) < 2 ^ Bounds.largest then ((m * 2 ^ e : ℚ) : WithTop ℚ) else ⊤ := rfl

/-- What reaches the largest power of two overflows. -/
theorem nearestDouble_top (h : (2 : ℚ) ^ (1024 : ℤ) ≤ T) : NearestDouble T ⊤ := by
  have h2 := two_pow_pos 971
  obtain ⟨x,hx⟩ : ∃ x, Nearest Bounds.mantissaBits Bounds.smallestSubnormal T x :=
    exists_nearest (by decide) ((two_pow_pos 1024).le.trans h)
  have hover : (2 : ℚ) ^ (1024 : ℤ) = 2 ^ 53 * 2 ^ (971 : ℤ) := by
    rw [← zpow_natCast,← zpow_add₀ (by norm_num)]
    rfl
  have hhalf : ((2 : ℚ) ^ 53 - 1 / 2) * 2 ^ (971 : ℤ) ≤ 2 ^ 53 * 2 ^ (971 : ℤ) :=
    mul_le_mul_of_nonneg_right (by norm_num) h2.le
  have hle := (nearest_overflow (k := 971) (by decide) (by decide) hx).mpr (hhalf.trans (hover ▸ h))
  exact ⟨x,hx,by rw [if_neg (by rw [Bounds.largest,hover]; exact hle.not_gt)]⟩

theorem nearestDouble_zero (h0 : 0 ≤ T) (h : T ≤ 2 ^ (-1075 : ℤ)) : NearestDouble T (Magnitude.scaled 0 0).denote := by
  refine ⟨0,(nearest_zero (by decide) h0).mpr h,?_⟩
  rw [denote_eq]
  norm_num

/-- The mantissa rounded at the scale of a magnitude is the double nearest to it. -/
theorem nearestDouble_scaled (hT : Scale T S) {m : ℕ} (hm : RoundsTo (T * 2 ^ S) m) :
    NearestDouble T (Magnitude.scaled m (-S)).denote := by
  have hback : T * 2 ^ S * 2 ^ (-S) = T := by
    rw [mul_assoc,← zpow_add₀ (by norm_num),add_neg_cancel,zpow_zero,mul_one]
  have hleast : -1074 ≤ -S := neg_le_neg hT.least
  have h := nearest_of_roundsTo (p := 53) (by omega) hleast hT.below (hT.full.imp id fun h => by omega) hm
  rw [hback] at h
  exact ⟨_,h,rfl⟩

/-- The value is in [1/2, 1) once scaled, so the exponent tells whether the scale left is that of
a whole mantissa. -/
theorem Digits.Scaled.width (hT : Scale T S) (h : Digits.Scaled T S d e) (hp : d.point ≤ 0) (hv : 1 / 2 ≤ d.value) :
    S + e ≤ 53 ∧ (S + e = 53 ∨ S = 1074) := by
  have hone : d.value < 1 := by
    have := h.tracks.lt.trans_le (ten_pow_le hp)
    simpa using this
  have hs : S + e ≤ 53 := by
    have h1 := h.below hT
    have h2 : (2 : ℚ) ^ (S + e - 1) ≤ d.value * 2 ^ (S + e) := by
      rw [zpow_sub_one₀ (by norm_num)]
      have := mul_le_mul_of_nonneg_right hv (two_pow_pos (S + e)).le
      linarith
    have := two_pow_lt_iff.mp (h2.trans_lt h1)
    omega
  refine ⟨hs,hT.full.imp_left fun hfull => ?_⟩
  -- The full mantissa is a multiple that the buffer has not lost.
  have hsame := h.tracks.same (2 ^ 53) (by
    have hscale : T * 2 ^ (-e) * 2 ^ (S + e + 1) = T * 2 ^ S * 2 := by
      rw [mul_assoc,← zpow_add₀ (by norm_num),show -e + (S + e + 1) = S + 1 by ring,zpow_add_one₀ (by norm_num)]
      ring
    rw [hscale]
    push_cast
    norm_num at hfull ⊢
    linarith)
  have hlt : (2 : ℚ) ^ (53 : ℤ) < 2 ^ (S + e + 1) := by
    have := mul_lt_mul_of_pos_right hone (two_pow_pos (S + e + 1))
    push_cast at hsame
    rw [one_mul] at this
    exact hsame.trans_lt this
  have := two_pow_lt_iff.mp hlt
  omega

/-- The digits of a magnitude that is not zero are read to the double nearest to it. -/
theorem magnitudeOf_nearest (h0 : 0 < T) (hne : d.held ≠ []) (hge : (10 : ℚ) ^ (d.point - 1) ≤ T)
    (hlt : T < 10 ^ d.point) (hd : d.point ≤ 400 → ∀ S, Scale T S → d.Tracks T S) :
    ∃ r, magnitudeOf d = .ok r ∧ NearestDouble T r.denote := by
  obtain ⟨S,hT⟩ := exists_scale h0
  rw [magnitudeOf,if_neg (by simpa [Digits.isZero,Digits.count] using hne)]
  by_cases hbig : (Bounds.exponentLimit : ℤ) < d.point
  · rw [if_pos hbig]
    refine ⟨.infinity,rfl,nearestDouble_top ?_⟩
    have h1 : (2 : ℚ) ^ (1024 : ℤ) ≤ 2 ^ (3 * 400 : ℤ) := two_pow_le (by norm_num)
    have h2 : (10 : ℚ) ^ (400 : ℤ) ≤ 10 ^ (d.point - 1) := ten_pow_le (by simp only [Bounds.exponentLimit] at hbig; omega)
    exact h1.trans ((two_le_ten (by norm_num)).trans (h2.trans hge))
  rw [if_neg hbig]
  by_cases hsmall : d.point < -(Bounds.exponentLimit : ℤ)
  · rw [if_pos hsmall]
    refine ⟨_,rfl,nearestDouble_zero h0.le ?_⟩
    have h1 : (10 : ℚ) ^ d.point ≤ 10 ^ (-401 : ℤ) := ten_pow_le (by simp only [Bounds.exponentLimit] at hsmall; omega)
    have h2 : (10 : ℚ) ^ (-401 : ℤ) ≤ 2 ^ (-1075 : ℤ) := by
      rw [zpow_neg,zpow_neg]
      exact inv_anti₀ (two_pow_pos _) ((two_pow_le (by norm_num)).trans (two_le_ten (k := 401) (by norm_num)))
    exact (hlt.trans_le (h1.trans h2)).le
  rw [if_neg hsmall]
  simp only [Bounds.exponentLimit] at hbig hsmall
  have htracks := hd (by omega) S hT
  obtain ⟨⟨d1,e1⟩,h1,hs1,hp1,hv1,he1⟩ := Digits.scaleDown_scaled hT htracks (by omega) (by omega)
  obtain ⟨⟨d2,e2⟩,h2,hs2,hp2,hv2,he2⟩ := Digits.scaleUp_scaled hT hs1 hp1 hv1 he1
  dsimp only at *
  obtain ⟨hw,hfull⟩ := hs2.width hT hp2 hv2
  rw [h1,ok_bind]
  dsimp only
  rw [h2,ok_bind]
  dsimp only
  have hleast := hT.least
  obtain ⟨m,hm,hround⟩ := Digits.mantissa_rounds hT hs2 hp2 (by omega) hw
  by_cases hover : Bounds.largest < e2
  · rw [if_pos hover]
    simp only [Bounds.largest] at hover
    refine ⟨.infinity,rfl,nearestDouble_top ?_⟩
    have hval := hv2.trans hs2.tracks.le
    have hpow : (2 : ℚ) ^ (1024 : ℤ) ≤ 2 ^ (e2 - 1) := two_pow_le (by omega)
    have hback : T * 2 ^ (-e2) * 2 ^ e2 = T := by
      rw [mul_assoc,← zpow_add₀ (by norm_num),neg_add_cancel,zpow_zero,mul_one]
    have := mul_le_mul_of_nonneg_right hval (two_pow_pos e2).le
    rw [hback] at this
    rw [zpow_sub_one₀ (by norm_num)] at hpow
    linarith
  rw [if_neg hover]
  by_cases hnormal : Bounds.smallestNormal ≤ e2
  · rw [if_pos hnormal]
    simp only [Bounds.smallestNormal] at hnormal
    obtain hse : S + e2 = 53 := by omega
    rw [hse] at hm
    refine ⟨_,by rw [show (Bounds.mantissaBits : ℤ) = 53 by rfl,hm,ok_bind],?_⟩
    rw [show e2 - (53 : ℤ) = -S by omega]
    exact nearestDouble_scaled hT hround
  · rw [if_neg hnormal]
    simp only [Bounds.smallestNormal] at hnormal
    obtain rfl : S = 1074 := by omega
    refine ⟨_,by rw [show e2 - Bounds.smallestSubnormal = 1074 + e2 by rw [Bounds.smallestSubnormal]; ring,hm,ok_bind],?_⟩
    exact nearestDouble_scaled hT hround

end Ens.Number
