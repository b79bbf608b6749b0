import Mathlib.Algebra.Order.Floor.Semiring
import Mathlib.Algebra.Order.Field.Power
import Mathlib.Algebra.Ring.Parity
import Mathlib.Data.Int.Log
import Mathlib.Data.Rat.Floor
import Mathlib.Tactic.Linarith
import Mathlib.Tactic.Ring
import Mathlib.Tactic.NormNum

/-! # Rounding to nearest, ties to even

A format holds the magnitudes with `p` mantissa bits whose last bit is worth at least `2 ^ least`.
What is nearest to a magnitude is unique, and it is found by rounding an integer at the scale where
the magnitude has all its bits.
-/
set_option linter.all false
namespace Ens.Rounding
variable {p n m : ℕ} {least k l : ℤ} {v w x y : ℚ}

/-- A format holds a magnitude. -/
def Held (p : ℕ) (least : ℤ) (x : ℚ) : Prop := ∃ n : ℕ, ∃ k : ℤ, n < 2 ^ p ∧ least ≤ k ∧ x = n * 2 ^ k

/-- A magnitude whose mantissa, with as many bits as it may have, is even. -/
def EvenMantissa (p : ℕ) (least : ℤ) (x : ℚ) : Prop :=
  ∃ n : ℕ, ∃ k : ℤ, n < 2 ^ p ∧ least ≤ k ∧ (2 ^ (p - 1) ≤ n ∨ k = least) ∧ Even n ∧ x = n * 2 ^ k

structure Nearest (p : ℕ) (least : ℤ) (v x : ℚ) : Prop where
  held : Held p least x
  closest : ∀ y, Held p least y → |x - v| ≤ |y - v|
  even : ∀ y, Held p least y → y ≠ x → |y - v| = |x - v| → EvenMantissa p least x

/-- An integer nearest to a magnitude, the even one of two. -/
def RoundsTo (w : ℚ) (n : ℕ) : Prop := |(n : ℚ) - w| ≤ 1 / 2 ∧ (|(n : ℚ) - w| = 1 / 2 → Even n)

/-! ### Powers of two -/

theorem two_pow_pos (k : ℤ) : (0 : ℚ) < 2 ^ k := zpow_pos (by norm_num) k

theorem two_pow_le (h : k ≤ l) : (2 : ℚ) ^ k ≤ 2 ^ l := zpow_le_zpow_right₀ (by norm_num) h

theorem two_pow_succ (k : ℤ) : (2 : ℚ) ^ (k + 1) = 2 * 2 ^ k := by
  rw [zpow_add_one₀ (by norm_num),mul_comm]

/-- A larger power of two is a natural multiple of a smaller one. -/
theorem two_pow_split (h : k ≤ l) : (2 : ℚ) ^ l = ((2 ^ (l - k).toNat : ℕ) : ℚ) * 2 ^ k := by
  have hl : l = ((l - k).toNat : ℤ) + k := by omega
  conv_lhs => rw [hl]
  rw [zpow_add₀ (by norm_num),zpow_natCast]
  push_cast
  rfl

theorem two_pow_pred (hp : 1 ≤ p) : (2 : ℚ) ^ p = 2 * 2 ^ (p - 1) := by
  rw [← pow_succ']
  congr 1
  omega

/-! ### Integers -/

theorem one_le_dist (w : ℚ) (hmn : m ≠ n) : 1 ≤ |(m : ℚ) - w| + |(n : ℚ) - w| := by
  have h1 : (1 : ℚ) ≤ |(m : ℚ) - n| := by
    have : (1 : ℤ) ≤ |(m : ℤ) - n| := Int.one_le_abs (by omega)
    exact_mod_cast this
  refine h1.trans ?_
  rw [abs_sub_comm (n : ℚ) w]
  exact abs_sub_le _ _ _

theorem RoundsTo.closest (h : RoundsTo w n) (m : ℕ) : |(n : ℚ) - w| ≤ |(m : ℚ) - w| := by
  by_cases hmn : m = n
  · rw [hmn]
  · have h1 := one_le_dist w hmn
    have h2 := h.1
    linarith

theorem RoundsTo.tie (h : RoundsTo w n) (hmn : m ≠ n) (he : |(m : ℚ) - w| = |(n : ℚ) - w|) : Even n := by
  have h1 := one_le_dist w hmn
  have h2 := h.1
  exact h.2 (by linarith)

theorem exists_roundsTo (hw : 0 ≤ w) : ∃ n, RoundsTo w n := by
  have h1 := Nat.floor_le hw
  have h2 := Nat.lt_floor_add_one w
  set f := ⌊w⌋₊
  rcases lt_trichotomy (w - f) (1 / 2) with h | h | h
  · exact ⟨f,by rw [abs_sub_comm,abs_of_nonneg] <;> linarith,fun he => by
      rw [abs_sub_comm,abs_of_nonneg] at he <;> linarith⟩
  · rcases Nat.even_or_odd f with he | ho
    · exact ⟨f,by rw [abs_sub_comm,abs_of_nonneg] <;> linarith,fun _ => he⟩
    · refine ⟨f + 1,?_,fun _ => ho.add_one⟩
      push_cast
      rw [abs_of_nonneg] <;> linarith
  · refine ⟨f + 1,?_,fun he => ?_⟩
    · push_cast
      rw [abs_of_nonneg] <;> linarith
    · push_cast at he
      rw [abs_of_nonneg] at he <;> linarith

theorem RoundsTo.le (h : RoundsTo w n) (hw : w ≤ m) : n ≤ m := by
  by_contra hlt
  have h1 : (m : ℚ) + 1 ≤ n := by exact_mod_cast not_le.mp hlt
  have h2 := le_trans (le_abs_self _) h.1
  linarith

theorem RoundsTo.ge (h : RoundsTo w n) (hw : (m : ℚ) ≤ w) : m ≤ n := by
  by_contra hlt
  have h1 : (n : ℚ) + 1 ≤ m := by exact_mod_cast not_le.mp hlt
  have h2 := neg_abs_le ((n : ℚ) - w)
  have h3 := h.1
  linarith

/-! ### Held magnitudes -/

theorem held_zero : Held p least 0 := ⟨0,least,Nat.two_pow_pos p,le_refl _,by simp⟩

theorem held_pow (hp : 1 ≤ p) (h : least ≤ k) : Held p least (2 ^ k) :=
  ⟨1,k,Nat.one_lt_two_pow (by omega),h,by simp⟩

theorem Held.double (h : Held p least x) : Held p least (2 * x) := by
  obtain ⟨n,k,hn,hk,rfl⟩ := h
  exact ⟨n,k + 1,hn,by omega,by rw [two_pow_succ]; ring⟩

theorem Held.nonneg (h : Held p least x) : 0 ≤ x := by
  obtain ⟨n,k,-,-,rfl⟩ := h
  have := two_pow_pos k
  positivity

/-- At a scale a held magnitude is an integer, or it has bits to spare there. -/
theorem Held.grid (h : Held p least y) (hp : 1 ≤ p) (hk : least ≤ k) :
    (∃ m : ℕ, y = m * 2 ^ k) ∨ (least < k ∧ y < 2 ^ (p - 1) * 2 ^ k) := by
  obtain ⟨m,l,hm,hl,rfl⟩ := h
  rcases le_or_gt k l with hkl | hkl
  · exact .inl ⟨m * 2 ^ (l - k).toNat,by rw [two_pow_split hkl]; push_cast; ring⟩
  · refine .inr ⟨by omega,?_⟩
    have h1 : (m : ℚ) < 2 ^ p := by exact_mod_cast hm
    have h2 : (2 : ℚ) ^ (l + 1) ≤ 2 ^ k := two_pow_le hkl
    have h3 := two_pow_pos l
    rw [two_pow_succ] at h2
    rw [two_pow_pred hp] at h1
    calc (m : ℚ) * 2 ^ l < 2 * 2 ^ (p - 1) * 2 ^ l := by gcongr
      _ = 2 ^ (p - 1) * (2 * 2 ^ l) := by ring
      _ ≤ 2 ^ (p - 1) * 2 ^ k := by gcongr

theorem held_carry (hn : n ≤ 2 ^ p) (hp : 1 ≤ p) (hk : least ≤ k) : Held p least (n * 2 ^ k) := by
  rcases Nat.lt_or_ge n (2 ^ p) with h | h
  · exact ⟨n,k,h,hk,rfl⟩
  · obtain rfl : n = 2 ^ p := by omega
    refine ⟨2 ^ (p - 1),k + 1,Nat.pow_lt_pow_right (by omega) (by omega),by omega,?_⟩
    push_cast
    rw [two_pow_pred hp,two_pow_succ]
    ring

/-! ### The nearest magnitude -/

/-- Rounding an integer at the scale of a magnitude gives what is nearest to it. -/
theorem nearest_of_roundsTo (hp : 2 ≤ p) (hk : least ≤ k) (h1 : w < 2 ^ p)
    (h2 : 2 ^ (p - 1) ≤ w ∨ k = least) (hr : RoundsTo w n) : Nearest p least (w * 2 ^ k) (n * 2 ^ k) := by
  have h2k := two_pow_pos k
  have hn : n ≤ 2 ^ p := hr.le (by push_cast; exact h1.le)
  have hscale (m : ℕ) : |(m : ℚ) * 2 ^ k - w * 2 ^ k| = |(m : ℚ) - w| * 2 ^ k := by
    rw [← sub_mul,abs_mul,abs_of_pos h2k]
  have hbelow {y : ℚ} (hy : least < k ∧ y < 2 ^ (p - 1) * 2 ^ k) :
      |(n : ℚ) * 2 ^ k - w * 2 ^ k| < |y - w * 2 ^ k| := by
    have hw : (2 : ℚ) ^ (p - 1) ≤ w := h2.resolve_right (by omega)
    have h3 := hr.closest (2 ^ (p - 1))
    push_cast at h3
    rw [abs_sub_comm ((2 : ℚ) ^ (p - 1)),abs_of_nonneg (sub_nonneg.mpr hw)] at h3
    rw [hscale,abs_sub_comm y]
    refine lt_of_lt_of_le ?_ (le_abs_self _)
    calc |(n : ℚ) - w| * 2 ^ k ≤ (w - 2 ^ (p - 1)) * 2 ^ k := by gcongr
      _ = w * 2 ^ k - 2 ^ (p - 1) * 2 ^ k := by ring
      _ < w * 2 ^ k - y := by linarith [hy.2]
  refine ⟨held_carry hn (by omega) hk,fun y hy => ?_,fun y hy hne he => ?_⟩
  · rcases hy.grid (by omega) hk with ⟨m,rfl⟩ | hy'
    · rw [hscale,hscale]
      have := hr.closest m
      gcongr
    · exact (hbelow hy').le
  · rcases hy.grid (by omega) hk with ⟨m,rfl⟩ | hy'
    · rw [hscale,hscale] at he
      have heven := hr.tie (by rintro rfl; exact hne rfl) (mul_right_cancel₀ h2k.ne' he)
      rcases Nat.lt_or_ge n (2 ^ p) with hlt | hge
      · refine ⟨n,k,hlt,hk,h2.imp_left fun hw => hr.ge (by push_cast; exact hw),heven,rfl⟩
      · obtain rfl : n = 2 ^ p := by omega
        refine ⟨2 ^ (p - 1),k + 1,Nat.pow_lt_pow_right (by omega) (by omega),by omega,.inl (le_refl _),
          (Nat.even_pow.mpr ⟨even_two,by omega⟩),?_⟩
        push_cast
        rw [two_pow_pred (by omega),two_pow_succ]
        ring
    · exact absurd he.symm (hbelow hy').ne

theorem succ_le_of_held (hp : 1 ≤ p) (hk : least ≤ k) (h : 2 ^ (p - 1) ≤ n ∨ k = least) (hy : Held p least y)
    (hlt : (n : ℚ) * 2 ^ k < y) : ((n + 1 : ℕ) : ℚ) * 2 ^ k ≤ y := by
  have h2k := two_pow_pos k
  rcases hy.grid hp hk with ⟨m,rfl⟩ | ⟨hl,hy'⟩
  · have hnm : (n : ℚ) < m := lt_of_mul_lt_mul_right hlt h2k.le
    have hnm' : n + 1 ≤ m := by exact_mod_cast hnm
    gcongr
  · have hn : (2 : ℚ) ^ (p - 1) ≤ n := by exact_mod_cast h.resolve_right (by omega)
    have : (2 : ℚ) ^ (p - 1) * 2 ^ k ≤ n * 2 ^ k := by gcongr
    linarith

theorem odd_not_even (hp : 1 ≤ p) (h : 2 ^ (p - 1) ≤ n ∨ k = least) (hn : Odd n) :
    ¬EvenMantissa p least (n * 2 ^ k) := by
  rintro ⟨m,l,hm,hl,-,he,heq⟩
  have h2k := two_pow_pos k
  rcases lt_trichotomy k l with hkl | rfl | hkl
  · rw [two_pow_split hkl.le,← mul_assoc] at heq
    have hnm : n = m * 2 ^ (l - k).toNat := by exact_mod_cast mul_right_cancel₀ h2k.ne' heq
    exact Nat.not_even_iff_odd.mpr hn (hnm ▸ he.mul_right _)
  · obtain rfl : n = m := by exact_mod_cast mul_right_cancel₀ h2k.ne' heq
    exact Nat.not_even_iff_odd.mpr hn he
  · rw [two_pow_split hkl.le,← mul_assoc] at heq
    have hnm : n * 2 ^ (k - l).toNat = m := by exact_mod_cast mul_right_cancel₀ (two_pow_pos l).ne' heq
    have h2 : 2 ≤ 2 ^ (k - l).toNat := Nat.le_self_pow (by omega) 2
    have h1 : 2 ^ (p - 1) ≤ n := h.resolve_right (by omega)
    have h3 : 2 ^ p = 2 ^ (p - 1) * 2 := by
      rw [← Nat.pow_succ]
      congr 1
      omega
    have h4 : 2 ^ (p - 1) * 2 ≤ n * 2 ^ (k - l).toNat := Nat.mul_le_mul h1 h2
    omega

theorem nearest_lt_eq (hp : 2 ≤ p) (hx : Nearest p least v x) (hy : Nearest p least v y) (hxy : x < y) :
    False := by
  have hdist := le_antisymm (hx.closest y hy.held) (hy.closest x hx.held)
  obtain ⟨n,k,hn,hk,hnorm,heven,rfl⟩ := hx.even y hy.held hxy.ne' hdist.symm
  have hyeven := hy.even _ hx.held hxy.ne hdist
  have hsucc := succ_le_of_held (by omega) hk hnorm hy.held hxy
  have hn' : n + 1 < 2 ^ p := by
    have h2 : Even (2 ^ p) := Nat.even_pow.mpr ⟨even_two,by omega⟩
    rcases heven with ⟨a,rfl⟩
    rcases h2 with ⟨b,hb⟩
    omega
  have hz : Held p least (((n + 1 : ℕ) : ℚ) * 2 ^ k) := ⟨n + 1,k,hn',hk,rfl⟩
  have hlt : (n : ℚ) * 2 ^ k < ((n + 1 : ℕ) : ℚ) * 2 ^ k := by
    have := two_pow_pos k
    gcongr
    omega
  -- The two are as far from the value as each other, so what lies between them would be closer.
  rcases hsucc.lt_or_eq with hlt' | heq
  · have h1 := hx.closest _ hz
    have h2 := hy.closest _ hz
    rcases abs_cases (((n + 1 : ℕ) : ℚ) * 2 ^ k - v) with ⟨h3,_⟩ | ⟨h3,_⟩ <;>
    rcases abs_cases (y - v) with ⟨h4,_⟩ | ⟨h4,_⟩ <;>
    rcases abs_cases ((n : ℚ) * 2 ^ k - v) with ⟨h5,_⟩ | ⟨h5,_⟩ <;> linarith
  · rw [← heq] at hyeven
    refine odd_not_even (by omega) ?_ heven.add_one hyeven
    exact hnorm.imp_left fun h => by omega

theorem nearest_unique (hp : 2 ≤ p) (hx : Nearest p least v x) (hy : Nearest p least v y) : x = y := by
  rcases lt_trichotomy x y with h | h | h
  · exact (nearest_lt_eq hp hx hy h).elim
  · exact h
  · exact (nearest_lt_eq hp hy hx h).elim

/-! ### AreDigits and large magnitudes -/

theorem exists_nearest (hp : 2 ≤ p) (hv : 0 ≤ v) : ∃ x, Nearest p least v x := by
  rcases hv.eq_or_lt with rfl | h0
  · obtain ⟨n,hn⟩ := exists_roundsTo (le_refl (0 : ℚ))
    exact ⟨_,by simpa using nearest_of_roundsTo hp (le_refl least) (by positivity) (.inr rfl) hn⟩
  · set E := Int.log 2 v + 1
    have h1 : (2 : ℚ) ^ (E - 1) ≤ v := by
      have := Int.zpow_log_le_self (b := 2) (by norm_num) h0
      simpa [E] using this
    have h2 : v < (2 : ℚ) ^ E := by
      have := Int.lt_zpow_succ_log_self (b := 2) (by norm_num) v
      simpa [E] using this
    set k := max (E - p) least
    have hk := two_pow_pos k
    have hw : v = v / 2 ^ k * 2 ^ k := (div_mul_cancel₀ v hk.ne').symm
    obtain ⟨n,hn⟩ := exists_roundsTo (w := v / 2 ^ k) (by positivity)
    rw [hw]
    refine ⟨_,nearest_of_roundsTo hp (le_max_right _ _) ?_ ?_ hn⟩
    · rw [div_lt_iff₀ hk,← zpow_natCast,← zpow_add₀ (by norm_num)]
      exact h2.trans_le (two_pow_le (by omega))
    · rcases max_choice (E - p) least with h | h
      · refine .inl ?_
        rw [le_div_iff₀ hk,← zpow_natCast,← zpow_add₀ (by norm_num)]
        exact le_trans (two_pow_le (by omega)) h1
      · exact .inr h

/-- Zero is nearest to what is at most half the least magnitude. -/
theorem nearest_zero (hp : 2 ≤ p) (hv : 0 ≤ v) : Nearest p least v 0 ↔ v ≤ 2 ^ (least - 1) := by
  have h2 := two_pow_succ (least - 1)
  rw [sub_add_cancel] at h2
  have hpos := two_pow_pos (least - 1)
  have hpos' := two_pow_pos least
  constructor
  · intro h
    have := h.closest _ (held_pow (by omega) (le_refl least))
    rw [zero_sub,abs_neg,abs_of_nonneg hv] at this
    rcases abs_cases ((2 : ℚ) ^ least - v) with ⟨h1,_⟩ | ⟨h1,_⟩ <;> linarith
  · intro h
    have hw : v = v / 2 ^ least * 2 ^ least := (div_mul_cancel₀ v hpos'.ne').symm
    have hle : v / 2 ^ least ≤ 1 / 2 := by rw [div_le_iff₀ hpos']; linarith
    have h1 : (1 : ℚ) < 2 ^ p := one_lt_pow₀ (by norm_num) (by omega)
    have := nearest_of_roundsTo (w := v / 2 ^ least) (n := 0) hp (le_refl least) (by linarith) (.inr rfl)
      ⟨by rw [abs_sub_comm,abs_of_nonneg] <;> simp <;> [linarith; positivity],fun _ => ⟨0,rfl⟩⟩
    rw [← hw] at this
    simpa using this

/-- What is nearest to two magnitudes is zero, or they are within a factor of three. -/
theorem nearest_ratio (hx : Nearest p least v x) (hy : Nearest p least w x) (h0 : 0 < x) (hv : 0 ≤ v) :
    w ≤ 3 * v := by
  have h1 := hx.closest 0 held_zero
  have h2 := hy.closest _ hx.held.double
  rw [zero_sub,abs_neg,abs_of_nonneg hv] at h1
  rcases abs_cases (x - v) with ⟨h3,_⟩ | ⟨h3,_⟩ <;>
  rcases abs_cases (x - w) with ⟨h4,_⟩ | ⟨h4,_⟩ <;>
  rcases abs_cases (2 * x - w) with ⟨h5,_⟩ | ⟨h5,_⟩ <;> linarith

theorem held_below (hp : 1 ≤ p) (hk : least ≤ k) (h : Held p least x) (hx : x < 2 ^ p * 2 ^ k) :
    x ≤ (2 ^ p - 1) * 2 ^ k := by
  have h2k := two_pow_pos k
  rcases h.grid hp hk with ⟨m,rfl⟩ | ⟨-,hx'⟩
  · have h1 : (m : ℚ) < 2 ^ p := lt_of_mul_lt_mul_right hx h2k.le
    have h2 : m + 1 ≤ 2 ^ p := by exact_mod_cast h1
    have h3 : (m : ℚ) + 1 ≤ 2 ^ p := by exact_mod_cast h2
    have : (m : ℚ) ≤ 2 ^ p - 1 := by linarith
    gcongr
  · have h1 := two_pow_pred hp
    have h2 : (1 : ℚ) ≤ 2 ^ (p - 1) := one_le_pow₀ (by norm_num)
    refine hx'.le.trans ?_
    have : (2 : ℚ) ^ (p - 1) ≤ 2 ^ p - 1 := by linarith
    gcongr

/-- What is nearest reaches a power of two where the magnitude reaches half a unit below it. -/
theorem nearest_overflow (hp : 2 ≤ p) (hk : least ≤ k) (hx : Nearest p least v x) :
    2 ^ p * 2 ^ k ≤ x ↔ (2 ^ p - 1 / 2) * 2 ^ k ≤ v := by
  have h2k := two_pow_pos k
  have hbelow : Held p least (((2 ^ p - 1 : ℕ) : ℚ) * 2 ^ k) := held_carry (Nat.sub_le _ _) (by omega) hk
  have habove : Held p least (2 ^ p * 2 ^ k) := by
    have hcarry : Held p least ((2 ^ p : ℕ) * 2 ^ k) := held_carry (le_refl (2 ^ p)) (by omega) hk
    push_cast at hcarry
    exact hcarry
  have hcast : ((2 ^ p - 1 : ℕ) : ℚ) = 2 ^ p - 1 := by
    rw [Nat.cast_sub Nat.one_le_two_pow]
    push_cast
    rfl
  rw [hcast] at hbelow
  constructor
  · intro h
    have h1 := hx.closest _ hbelow
    by_contra hlt
    rcases abs_cases (x - v) with ⟨h3,_⟩ | ⟨h3,_⟩ <;>
    rcases abs_cases ((2 ^ p - 1) * 2 ^ k - v) with ⟨h4,_⟩ | ⟨h4,_⟩ <;> linarith
  · intro h
    by_contra hlt
    have h1 := held_below (by omega) hk hx.held (not_le.mp hlt)
    have h2 := hx.closest _ habove
    have heq : x = (2 ^ p - 1) * 2 ^ k ∧ |2 ^ p * 2 ^ k - v| = |x - v| := by
      rcases abs_cases (x - v) with ⟨h3,_⟩ | ⟨h3,_⟩ <;>
      rcases abs_cases (2 ^ p * 2 ^ k - v) with ⟨h4,_⟩ | ⟨h4,_⟩ <;>
      constructor <;> linarith
    have heven := hx.even _ habove (by rintro rfl; exact hlt (le_refl _)) heq.2
    rw [heq.1,← hcast] at heven
    refine odd_not_even (by omega) (.inl ?_) ?_ heven
    · have : 2 ^ p = 2 ^ (p - 1) * 2 := by
        rw [← Nat.pow_succ]
        congr 1
        omega
      have := Nat.one_le_two_pow (n := p - 1)
      omega
    · exact Nat.Even.sub_odd Nat.one_le_two_pow (Nat.even_pow.mpr ⟨even_two,by omega⟩) odd_one

end Ens.Rounding
