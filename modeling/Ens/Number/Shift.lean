import Ens.Number.Decimal
import Ens.Number.Digits
import Ens.Number.Rounding
import Mathlib.Tactic.LinearCombination
import Mathlib.Tactic.Positivity

/-! # Shifting the digit buffer

A shift multiplies or divides what the buffer holds by a power of two. The buffer is exact until
it drops digits other than zeros, which it records, and then it is a shade low: it still lies on
the same side of every integer and of every half at the scale it is rounded at.
-/
set_option linter.all false
namespace Ens.Number
open Loop Decimal Rounding
variable {d : Digits} {T : ℚ} {s : ℤ} {bits n : ℕ}

namespace Digits

def value (d : Digits) : ℚ := magnitude d.held d.point

/-- The buffer stands for a magnitude to be rounded to an integer once scaled by `2 ^ s`. -/
structure Follows (d : Digits) (T : ℚ) (s : ℤ) : Prop where
  small : AreDigits d.held
  fits : d.held.length ≤ Bounds.capacity
  nonzero : ∃ x ∈ d.held, x ≠ 0
  le : d.value ≤ T
  flag : d.truncated = true ↔ d.value < T
  same : Same s d.value T

structure Tracks (d : Digits) (T : ℚ) (s : ℤ) : Prop extends Follows d T s where
  first : d.held.head? ≠ some 0
  last : d.held.getLast? ≠ some 0

theorem Tracks.cons (h : Tracks d T s) : ∃ x l, d.held = x :: l ∧ x ≠ 0 := by
  obtain ⟨y,hy,-⟩ := h.nonzero
  cases hd : d.held with
  | nil => rw [hd] at hy; cases hy
  | cons x l => exact ⟨x,l,rfl,fun h0 => h.first (by rw [hd,h0]; rfl)⟩

theorem Tracks.ge (h : Tracks d T s) : (10 : ℚ) ^ (d.point - 1) ≤ d.value := by
  obtain ⟨x,l,hd,hx⟩ := h.cons
  rw [value,hd]
  exact magnitude_ge hx _

theorem Follows.lt (h : Follows d T s) : d.value < 10 ^ d.point := magnitude_lt h.small _

theorem Follows.pos (h : Follows d T s) : 0 < d.value := by
  obtain ⟨x,hx,h0⟩ := h.nonzero
  have h1 := number_pos hx h0
  have h2 := ten_pow_pos (d.point - d.held.length)
  rw [value,magnitude]
  positivity

/-! ### Normalizing -/

theorem normalize_held (d : Digits) : ∃ n, d.held =
    List.replicate (d.held.takeWhile fun x => decide (x = 0)).length 0 ++
      ((d.held.dropWhile fun x => decide (x = 0)).rdropWhile fun x => decide (x = 0)) ++ List.replicate n 0 := by
  obtain ⟨n,hn⟩ := rdropWhile_split (d.held.dropWhile fun x => decide (x = 0))
  refine ⟨n,?_⟩
  rw [List.append_assoc,← hn]
  exact zeros_split _

theorem normalize_tracks_value (h : Follows d T s) : Tracks (normalize d) T s ∧ (normalize d).value = d.value := by
  obtain ⟨n,hn⟩ := normalize_held d
  set lead := (d.held.takeWhile fun x => decide (x = 0)).length
  set core := (d.held.dropWhile fun x => decide (x = 0)).rdropWhile fun x => decide (x = 0) with hcore
  have hne : core ≠ [] := by
    intro h0
    obtain ⟨x,hx,hx0⟩ := h.nonzero
    rw [hn,h0] at hx
    simp at hx
    omega
  have hnorm : normalize d = ⟨core,d.point - lead,d.truncated⟩ := if_neg hne
  have hvalue : (normalize d).value = d.value := by
    rw [hnorm,value,value,hn,magnitude_append_zeros,magnitude_zeros_append]
  have hsub : ∀ x ∈ core, x ∈ d.held := fun x hx => by rw [hn]; simp [hx]
  have hlen : core.length ≤ d.held.length := by
    conv_rhs => rw [hn]
    simp only [List.length_append]
    omega
  have hfirst : core.head? ≠ some 0 := by
    intro h0
    have hp := List.rdropWhile_prefix (p := fun x => decide (x = 0)) (d.held.dropWhile fun x => decide (x = 0))
    rw [← hcore] at hp
    obtain ⟨t,ht⟩ := hp
    have h1 := List.head?_dropWhile_not (fun x => decide (x = 0)) d.held
    cases hc : core with
    | nil => exact hne hc
    | cons a l =>
      rw [hc] at h0 ht
      rw [← ht] at h1
      simp at h0 h1
      exact h1 h0
  have hlast : core.getLast? ≠ some 0 := by
    intro h0
    have h1 := List.rdropWhile_last_not (p := fun x => decide (x = 0)) (l := d.held.dropWhile fun x => decide (x = 0)) hne
    rw [List.getLast?_eq_some_getLast hne] at h0
    exact h1 (by simpa using h0)
  rw [hnorm] at hvalue ⊢
  exact ⟨⟨⟨fun x hx => h.small x (hsub x hx),hlen.trans h.fits,by
    cases hc : core with
    | nil => exact absurd hc hne
    | cons a l => exact ⟨a,List.mem_cons_self ..,fun h0 => hfirst (by rw [hc,h0]; rfl)⟩,
    hvalue.le.trans h.le,by rw [hvalue]; exact h.flag,by rw [hvalue]; exact h.same⟩,hfirst,hlast⟩,hvalue⟩

theorem normalize_tracks (h : Follows d T s) : Tracks (normalize d) T s := (normalize_tracks_value h).1

theorem normalize_value (h : Follows d T s) : (normalize d).value = d.value := (normalize_tracks_value h).2

/-! ### Dropping digits -/

/-- The digits kept to a place with room for the scale follow what all of them stand for. -/
theorem cut_follows {x : ℕ} {l : List ℕ} {point : ℤ} {t : Bool} {keep : ℕ} (hsmall : AreDigits (x :: l)) (hx : x ≠ 0)
    (hle : magnitude (x :: l) point ≤ T) (hflag : t = true ↔ magnitude (x :: l) point < T)
    (hsame : Same s (magnitude (x :: l) point) T) (h0 : 0 < keep) (hfull : keep ≤ (x :: l).length)
    (hcap : keep ≤ Bounds.capacity) (hk : 0 ≤ keep - point) (hs : s + 1 ≤ keep - point) :
    Follows ⟨(x :: l).take keep,point,t || ((x :: l).drop keep).any fun y => decide (y ≠ 0)⟩ T s ∧
      magnitude (x :: l) point ≤ magnitude ((x :: l).take keep) point + 10 ^ (point - keep) := by
  have hlen : ((x :: l).take keep).length = keep := by rw [List.length_take]; omega
  have hsplit : magnitude (x :: l) point =
      magnitude ((x :: l).take keep) point + magnitude ((x :: l).drop keep) (point - keep) := by
    conv_lhs => rw [← List.take_append_drop keep (x :: l)]
    rw [magnitude_append,hlen]
  have hdrop := magnitude_nonneg ((x :: l).drop keep) (point - keep)
  have hdrop' := magnitude_lt (l := (x :: l).drop keep) (fun y hy => hsmall y (List.mem_of_mem_drop hy)) (point - keep)
  refine ⟨⟨fun y hy => hsmall y (List.mem_of_mem_take hy),?_,?_,?_,?_,?_⟩,by linarith⟩
  · exact (List.length_take_le _ _).trans hcap
  · obtain ⟨k,rfl⟩ : ∃ k, keep = k + 1 := ⟨keep - 1,by omega⟩
    exact ⟨x,by rw [List.take_succ_cons]; exact List.mem_cons_self ..,hx⟩
  · simp only [value]
    linarith
  · simp only [value]
    rw [Bool.or_eq_true,hflag,hsplit]
    constructor
    · rintro (hlt | hany)
      · linarith
      · obtain ⟨y,hy,hy0⟩ := List.any_eq_true.mp hany
        have h1 := number_pos hy (by simpa using hy0)
        have h2 := ten_pow_pos (point - keep - ((x :: l).drop keep).length)
        have h3 : 0 < magnitude ((x :: l).drop keep) (point - keep) := by
          rw [magnitude]
          positivity
        linarith
    · intro hlt
      by_cases hany : ((x :: l).drop keep).any (fun y => decide (y ≠ 0)) = true
      · exact .inr hany
      · refine .inl ?_
        have hzero : number ((x :: l).drop keep) = 0 := number_eq_zero fun y hy => by
          by_contra hy0
          exact hany (List.any_eq_true.mpr ⟨y,hy,by simpa using hy0⟩)
        simp only [magnitude,hzero] at hlt ⊢
        simpa using hlt
  · have hcut := hsame.cut (m := number ((x :: l).take keep)) hk hs ?_
    · simp only [value]
      rw [magnitude,hlen]
      rwa [show -((keep : ℤ) - point) = point - keep by ring] at hcut
    · rw [hsplit,magnitude,hlen,show -((keep : ℤ) - point) = point - keep by ring]
      push_cast
      linarith

theorem dropLast_follows (h : Tracks d T s) {keep : ℕ} (hkeep : d.count - n = keep) (h0 : 0 < keep)
    (hk : 0 ≤ keep - d.point) (hs : s + 1 ≤ keep - d.point) :
    Follows (dropLast d n) T s ∧ d.value ≤ (dropLast d n).value + 10 ^ (d.point - keep) ∧
      (dropLast d n).value ≤ d.value := by
  obtain ⟨x,l,hd,hx⟩ := h.cons
  have hfull : keep ≤ (x :: l).length := by rw [← hd]; unfold count at hkeep; omega
  have hdrop : dropLast d n = ⟨(x :: l).take keep,d.point,d.truncated || ((x :: l).drop keep).any fun y => decide (y ≠ 0)⟩ := by
    rw [dropLast,hkeep,hd]
  have hvalue : d.value = magnitude (x :: l) d.point := by rw [value,hd]
  obtain ⟨h1,h2⟩ := cut_follows (hd ▸ h.small) hx (hvalue ▸ h.le) (by rw [← hvalue]; exact h.flag)
    (hvalue ▸ h.same) h0 hfull (hfull.trans (hd ▸ h.fits)) hk hs
  rw [hdrop,hvalue]
  refine ⟨h1,h2,?_⟩
  conv_rhs => rw [← List.take_append_drop keep (x :: l),magnitude_append]
  have := magnitude_nonneg ((x :: l).drop keep) (d.point - ((x :: l).take keep).length)
  simp only [value]
  linarith

/-! ### Multiplying -/

theorem carried_spec (bits : ℕ) {l : List ℕ} : AreDigits (carried bits l).2 ∧ (carried bits l).2.length = l.length ∧
    (carried bits l).1 * 10 ^ l.length + number (carried bits l).2 = number l * 2 ^ bits := by
  induction l with
  | nil => exact ⟨fun _ hx => (nomatch hx),rfl,by simp [carried]⟩
  | cons x l ih =>
    obtain ⟨h1,h2,h3⟩ := ih
    rw [carried]
    refine ⟨?_,by simp [h2],?_⟩
    · rintro y (_ | ⟨_,hy⟩)
      · exact Nat.mod_lt _ (by omega)
      · exact h1 y hy
    · dsimp only
      rw [number_cons,number_cons,h2,Nat.shiftLeft_eq,List.length_cons]
      have h4 := Nat.div_add_mod (x * 2 ^ bits + (carried bits l).1) 10
      calc _ = (10 * ((x * 2 ^ bits + (carried bits l).1) / 10) + (x * 2 ^ bits + (carried bits l).1) % 10) * 10 ^ l.length
            + number (carried bits l).2 := by ring
        _ = x * 2 ^ bits * 10 ^ l.length + ((carried bits l).1 * 10 ^ l.length + number (carried bits l).2) := by
            rw [h4]
            ring
        _ = _ := by
            rw [h3]
            ring

/-- The room in front of the digits takes every carry of one shift. -/
theorem carried_room {l : List ℕ} (hl : AreDigits l) (hbits : bits ≤ Bounds.shiftBits) :
    number (carried bits (List.replicate Bounds.lead 0 ++ l)).2 = number l * 2 ^ bits := by
  obtain ⟨h1,h2,h3⟩ := carried_spec bits (l := List.replicate Bounds.lead 0 ++ l)
  have hnumber : number (List.replicate Bounds.lead 0 ++ l) = number l := by
    rw [number_append,number_replicate,Nat.zero_mul,Nat.zero_add]
  rw [hnumber] at h3
  have hlt : number l * 2 ^ bits < 10 ^ (List.replicate Bounds.lead 0 ++ l).length := by
    have h4 : 2 ^ bits ≤ 10 ^ Bounds.lead :=
      (Nat.pow_le_pow_right (by omega) hbits).trans (by decide)
    rw [List.length_append,List.length_replicate,pow_add,Nat.mul_comm]
    exact Nat.mul_lt_mul_of_le_of_lt h4 (number_lt hl) (by positivity)
  have hcarry : (carried bits (List.replicate Bounds.lead 0 ++ l)).1 = 0 := by
    by_contra h0
    have := Nat.mul_le_mul_right (10 ^ (List.replicate Bounds.lead 0 ++ l).length) (Nat.pos_of_ne_zero h0)
    omega
  rw [hcarry,Nat.zero_mul,Nat.zero_add] at h3
  exact h3

/-- Multiplying what the digits hold keeps what they follow, when there is room in front of them. -/
theorem multiply_follows (h : Follows d T s) (hfits : d.held.length + Bounds.lead ≤ Bounds.capacity)
    (hbits : bits ≤ Bounds.shiftBits) :
    Follows { d with held := (carried bits (List.replicate Bounds.lead 0 ++ d.held)).2, point := d.point + Bounds.lead }
      (T * 2 ^ (bits : ℤ)) (s - bits) ∧
    value { d with held := (carried bits (List.replicate Bounds.lead 0 ++ d.held)).2, point := d.point + Bounds.lead } =
      d.value * 2 ^ (bits : ℤ) := by
  obtain ⟨h1,h2,-⟩ := carried_spec bits (l := List.replicate Bounds.lead 0 ++ d.held)
  rw [List.length_append,List.length_replicate] at h2
  have hnumber := carried_room h.small hbits
  have hpos : (0 : ℚ) < 2 ^ (bits : ℤ) := zpow_pos (by norm_num) _
  set held := (carried bits (List.replicate Bounds.lead 0 ++ d.held)).2
  have hvalue : value { d with held := held, point := d.point + Bounds.lead } = d.value * 2 ^ (bits : ℤ) := by
    simp only [value,magnitude,hnumber,h2]
    push_cast
    rw [show d.point + (Bounds.lead : ℤ) - (Bounds.lead + d.held.length) = d.point - d.held.length by ring,
      zpow_natCast]
    ring
  refine ⟨⟨h1,by simp only; omega,?_,?_,?_,?_⟩,hvalue⟩
  · by_contra hno
    have hzero : number held = 0 := number_eq_zero fun x hx => by
      by_contra hx0
      exact hno ⟨x,hx,hx0⟩
    obtain ⟨x,hx,hx0⟩ := h.nonzero
    have := Nat.mul_pos (number_pos hx hx0) (Nat.two_pow_pos bits)
    omega
  · rw [hvalue]
    exact mul_le_mul_of_nonneg_right h.le hpos.le
  · rw [hvalue,mul_lt_mul_iff_left₀ hpos]
    exact h.flag
  · rw [hvalue]
    exact h.same.scale bits

theorem shiftLeft_tracks (h : Tracks d T s) (hbits : bits ≤ Bounds.shiftBits)
    (hroom : d.point ≤ 780 ∧ d.point + s + 1 ≤ 780) :
    Tracks (shiftLeft d bits) (T * 2 ^ (bits : ℤ)) (s - bits) ∧
      (shiftLeft d bits).value ≤ d.value * 2 ^ (bits : ℤ) ∧
      d.value * (3 / 4) * 2 ^ (bits : ℤ) ≤ (shiftLeft d bits).value := by
  have hfits := h.fits
  have hpos : (0 : ℚ) < 2 ^ (bits : ℤ) := zpow_pos (by norm_num) _
  have hvpos := h.pos
  unfold shiftLeft
  split
  · rename_i hfull
    have hkeep : d.count - (d.count + Bounds.lead - Bounds.capacity) = 780 := by
      simp only [count,Bounds.lead,Bounds.capacity] at *
      omega
    obtain ⟨h1,h2,h3⟩ := dropLast_follows h hkeep (by omega) (by omega) (by omega)
    obtain ⟨h4,h5⟩ := multiply_follows h1 (by
      rw [dropLast,hkeep,List.length_take]
      simp only [Bounds.lead,Bounds.capacity]
      omega) hbits
    have hquarter : (10 : ℚ) ^ (d.point - (780 : ℕ)) ≤ d.value * (1 / 4) := by
      have hten : (10 : ℚ) ^ (d.point - (780 : ℕ)) ≤ 10 ^ (d.point - 1) * 10 ^ (-1 : ℤ) := by
        rw [← zpow_add₀ (by norm_num)]
        exact ten_pow_le (by omega)
      have hone : (10 : ℚ) ^ (-1 : ℤ) = 1 / 10 := by norm_num
      have := h.ge
      rw [hone] at hten
      linarith
    refine ⟨normalize_tracks h4,?_,?_⟩
    · rw [normalize_value h4,h5]
      exact mul_le_mul_of_nonneg_right h3 hpos.le
    · rw [normalize_value h4,h5]
      refine mul_le_mul_of_nonneg_right ?_ hpos.le
      have := h2.trans (add_le_add_right hquarter _)
      linarith
  · rename_i hfull
    obtain ⟨h4,h5⟩ := multiply_follows h.toFollows (by unfold count at hfull; omega) hbits
    refine ⟨normalize_tracks h4,(normalize_value h4).trans h5 |>.le,?_⟩
    rw [normalize_value h4,h5]
    refine mul_le_mul_of_nonneg_right ?_ hpos.le
    linarith

/-! ### Dividing -/

structure Divides (bits : ℕ) (l : List ℕ) (truncated : Bool) (s : Division) : Prop where
  spells : number l = number s.written * 2 ^ bits + s.remainder
  remainder : s.remainder < 2 ^ bits
  length : s.written.length + s.dropped = l.length
  small : AreDigits s.written
  first : s.written.head? ≠ some 0
  fits : s.written.length ≤ Bounds.capacity
  flag : s.truncated = truncated

variable {l : List ℕ} {x : ℕ} {t : Bool} {v : Division}

theorem divides_nil (bits : ℕ) (t : Bool) : Divides bits [] t { truncated := t } where
  spells := by simp [number]
  remainder := Nat.two_pow_pos bits
  length := rfl
  small := fun _ hx => (nomatch hx)
  first := by simp
  fits := Nat.zero_le _
  flag := rfl

/-- What one digit more does: a zero in front of the quotient is left out, and another digit is
written where there is room. -/
theorem Divides.next (h : Divides bits l t v) (hx : x < 10) :
    (v.remainder * 10 + x) >>> bits < 10 ∧
    number (l ++ [x]) = (number v.written * 10 + (v.remainder * 10 + x) >>> bits) * 2 ^ bits
      + (v.remainder * 10 + x) % 2 ^ bits := by
  have h2 := Nat.two_pow_pos bits
  rw [Nat.shiftRight_eq_div_pow]
  refine ⟨?_,?_⟩
  · rw [Nat.div_lt_iff_lt_mul h2]
    have := h.remainder
    omega
  · have h3 := Nat.div_add_mod (v.remainder * 10 + x) (2 ^ bits)
    rw [number_concat,h.spells]
    calc _ = number v.written * 10 * 2 ^ bits + (v.remainder * 10 + x) := by ring
      _ = number v.written * 10 * 2 ^ bits
          + (2 ^ bits * ((v.remainder * 10 + x) / 2 ^ bits) + (v.remainder * 10 + x) % 2 ^ bits) := by rw [h3]
      _ = _ := by ring

theorem Divides.skip (h : Divides bits l t v) (hx : x < 10) (hq : (v.remainder * 10 + x) >>> bits = 0)
    (hw : v.written = []) : Divides bits (l ++ [x]) t
      { v with remainder := (v.remainder * 10 + x) % 2 ^ bits, dropped := v.dropped + 1 } where
  spells := by
    rw [(h.next hx).2,hq,hw]
    rfl
  remainder := Nat.mod_lt _ (Nat.two_pow_pos bits)
  length := by
    have := h.length
    simp only [List.length_append,List.length_singleton]
    omega
  small := h.small
  first := h.first
  fits := h.fits
  flag := h.flag

theorem Divides.write (h : Divides bits l t v) (hx : x < 10)
    (hq : ¬((v.remainder * 10 + x) >>> bits = 0 ∧ v.written = [])) (hroom : v.written.length < Bounds.capacity) :
    Divides bits (l ++ [x]) t { v with remainder := (v.remainder * 10 + x) % 2 ^ bits, written := v.written ++ [(v.remainder * 10 + x) >>> bits] } where
  spells := by
    rw [(h.next hx).2,number_concat]
  remainder := Nat.mod_lt _ (Nat.two_pow_pos bits)
  length := by
    have := h.length
    simp only [List.length_append,List.length_singleton]
    omega
  small := by
    intro y hy
    rcases List.mem_append.mp hy with hy | hy
    · exact h.small y hy
    · obtain rfl := List.mem_singleton.mp hy
      exact (h.next hx).1
  first := by
    cases hw : v.written with
    | nil =>
      have h0 : (v.remainder * 10 + x) >>> bits ≠ 0 := fun h0 => hq ⟨h0,hw⟩
      simpa using h0
    | cons y l =>
      have := h.first
      rw [hw] at this
      simpa using this
  fits := by
    simp only [List.length_append,List.length_singleton]
    omega
  flag := h.flag

theorem digit_divides (h : Divides bits l t v) (hx : x < 10) (hl : l.length < Bounds.capacity) :
    Divides bits (l ++ [x]) t (Division.digit bits v x) := by
  have hlen := h.length
  unfold Division.digit
  dsimp only
  split
  · rename_i hq
    exact h.skip hx hq.1 hq.2
  · rename_i hq
    rw [if_pos (by omega)]
    exact h.write hx hq (by omega)

theorem digits_divide {l' : List ℕ} (h : Divides bits l t v) (hl' : AreDigits l')
    (hl : l.length + l'.length ≤ Bounds.capacity) :
    Divides bits (l ++ l') t (l'.foldl (Division.digit bits) v) := by
  induction l' generalizing l v with
  | nil => simpa using h
  | cons x l' ih =>
    rw [List.length_cons] at hl
    have := ih (digit_divides h (hl' x (List.mem_cons_self ..)) (by omega))
      (fun y hy => hl' y (List.mem_cons_of_mem _ hy)) (by simp only [List.length_append,List.length_singleton]; omega)
    rwa [List.append_assoc] at this

structure Divided (bits : ℕ) (l : List ℕ) (truncated : Bool) (s : Division) : Prop where
  small : AreDigits s.written
  first : s.written.head? ≠ some 0
  fits : s.written.length ≤ Bounds.capacity
  rest : ∃ i r, s.written.length + s.dropped = l.length + i ∧
    number l * 10 ^ i = number s.written * 2 ^ bits + r ∧ r < 2 ^ bits ∧
    ((r = 0 ∧ s.truncated = truncated) ∨ (0 < r ∧ s.truncated = true ∧ s.written.length = Bounds.capacity))

theorem tail_divided (h : Divides bits l t v) :
    ∃ v', loop .endless (Division.tail bits) (bits + 1) v = .ok v' ∧ Divided bits l t v' := by
  -- Each round multiplies the remainder by ten, so it takes one more factor of two into it.
  refine loop_ok (I := fun v => ∃ i, Divides bits (l ++ List.replicate i 0) t v ∧ 2 ^ i ∣ v.remainder)
    (fun v => bits - (v.written.length + v.dropped - l.length)) (fun v ⟨i,hv,hi⟩ => ?_)
    ⟨0,by simpa using h,one_dvd _⟩ (by omega)
  have hlen := hv.length
  rw [List.length_append,List.length_replicate] at hlen
  have hnum := hv.spells
  rw [number_append,number_replicate,List.length_replicate,Nat.add_zero] at hnum
  by_cases hr : v.remainder = 0
  · refine .inl ⟨v,by rw [Division.tail,if_pos hr],hv.small,hv.first,hv.fits,i,0,hlen,by omega,
      Nat.two_pow_pos bits,.inl ⟨rfl,hv.flag⟩⟩
  · have hib : i < bits := by
      by_contra hge
      have h1 := Nat.le_of_dvd (Nat.pos_of_ne_zero hr) hi
      have h2 := Nat.pow_le_pow_right (show 0 < 2 by omega) (not_lt.mp hge)
      have h3 := hv.remainder
      omega
    have hdvd : 2 ^ (i + 1) ∣ v.remainder * 10 % 2 ^ bits := by
      refine (Nat.dvd_mod_iff (Nat.pow_dvd_pow 2 hib)).mpr ?_
      rw [pow_succ]
      exact Nat.mul_dvd_mul hi (by decide)
    have happ : l ++ List.replicate i 0 ++ [0] = l ++ List.replicate (i + 1) 0 := by
      rw [List.append_assoc,List.replicate_succ']
    rw [Division.tail,if_neg hr]
    dsimp only
    split
    · rename_i hq
      have := hv.skip (x := 0) (by omega) hq.1 hq.2
      rw [happ] at this
      exact .inr ⟨_,rfl,⟨i + 1,this,hdvd⟩,by simp only; omega⟩
    split
    · rename_i hq hfull
      have hcap : v.written.length = Bounds.capacity := le_antisymm hv.fits hfull
      have hrest : (v.remainder * 10) >>> bits ≠ 0 ∨ v.remainder * 10 % 2 ^ bits ≠ 0 := by
        rw [Nat.shiftRight_eq_div_pow]
        by_contra hno
        have h1 := Nat.div_add_mod (v.remainder * 10) (2 ^ bits)
        rw [not_or,not_not,not_not] at hno
        rw [hno.1,hno.2] at h1
        omega
      refine .inl ⟨_,rfl,?_⟩
      rw [if_pos hrest]
      exact ⟨hv.small,hv.first,hv.fits,i,v.remainder,hlen,hnum,hv.remainder,.inr ⟨Nat.pos_of_ne_zero hr,rfl,hcap⟩⟩
    · rename_i hq hroom
      have := hv.write (x := 0) (by omega) hq (not_le.mp hroom)
      rw [happ] at this
      refine .inr ⟨_,rfl,⟨i + 1,this,hdvd⟩,?_⟩
      simp only [List.length_append,List.length_singleton]
      omega

theorem shiftRight_tracks (h : Tracks d T s)
    (hroom : ∀ q : ℤ, (10 : ℚ) ^ (q - 1) ≤ d.value * 2 ^ (-(bits : ℤ)) → q ≤ 780 ∧ q + (s + bits) + 1 ≤ 780) :
    ∃ d', shiftRight d bits = .ok d' ∧ Tracks d' (T * 2 ^ (-(bits : ℤ))) (s + bits) ∧
      d'.value ≤ d.value * 2 ^ (-(bits : ℤ)) ∧ d.value * 2 ^ (-(bits : ℤ)) ≤ d'.value * 2 := by
  have hdiv := digits_divide (divides_nil bits d.truncated) h.small (by simpa using h.fits)
  obtain ⟨v,hv,hsmall,hfirst,hfits,i,r,hlen,hnum,hr,hrest⟩ := tail_divided hdiv
  rw [List.nil_append] at hlen hnum
  have hpos : (0 : ℚ) < 2 ^ (-(bits : ℤ)) := zpow_pos (by norm_num) _
  set q := d.point - v.dropped
  have h10 := ten_pow_pos (q - v.written.length)
  have hunit : (10 : ℚ) ^ (d.point - d.held.length) = 10 ^ i * 10 ^ (q - v.written.length) := by
    rw [← zpow_natCast,← zpow_add₀ (by norm_num)]
    congr 1
    omega
  have h2bits : (2 : ℚ) ^ bits * 2 ^ (-(bits : ℤ)) = 1 := by
    rw [← zpow_natCast,← zpow_add₀ (by norm_num),add_neg_cancel,zpow_zero]
  -- The quotient and what is left of the remainder, in units of the last digit written.
  have hvalue : d.value * 2 ^ (-(bits : ℤ)) = magnitude v.written q
      + r * 2 ^ (-(bits : ℤ)) * 10 ^ (q - v.written.length) := by
    have hnum' : (number d.held : ℚ) * 10 ^ i = number v.written * 2 ^ bits + r := by exact_mod_cast hnum
    rw [value,magnitude,magnitude,hunit,← mul_assoc,hnum']
    linear_combination (number v.written : ℚ) * 10 ^ (q - v.written.length) * h2bits
  have hr' : (r : ℚ) * 2 ^ (-(bits : ℤ)) < 1 := by
    rw [← h2bits]
    exact mul_lt_mul_of_pos_right (by exact_mod_cast hr) hpos
  have hcut := mul_lt_mul_of_pos_right hr' h10
  have hrnn : 0 ≤ (r : ℚ) * 2 ^ (-(bits : ℤ)) * 10 ^ (q - v.written.length) := by positivity
  have hne : v.written ≠ [] := by
    intro h0
    rcases hrest with ⟨hr0,-⟩ | ⟨-,-,hcap⟩
    · obtain ⟨x,hx,hx0⟩ := h.nonzero
      have := Nat.mul_pos (number_pos hx hx0) (Nat.pow_pos (n := i) (show 0 < 10 by omega))
      rw [hnum,h0,hr0] at this
      simp at this
    · rw [h0] at hcap
      simp [Bounds.capacity] at hcap
  obtain ⟨x,w,hw,hx⟩ : ∃ x w, v.written = x :: w ∧ x ≠ 0 := by
    cases hw : v.written with
    | nil => exact absurd hw hne
    | cons x w => exact ⟨x,w,rfl,fun h0 => hfirst (by rw [hw,h0]; rfl)⟩
  have hle : magnitude v.written q ≤ d.value * 2 ^ (-(bits : ℤ)) := by rw [hvalue]; linarith
  have hT := mul_le_mul_of_nonneg_right h.le hpos.le
  have hsame := h.same.scale (-(bits : ℤ))
  rw [sub_neg_eq_add] at hsame
  suffices hfollows : Follows ⟨v.written,q,v.truncated⟩ (T * 2 ^ (-(bits : ℤ))) (s + bits) by
    refine ⟨_,by rw [shiftRight,hv,ok_bind],normalize_tracks hfollows,?_,?_⟩
    · rw [normalize_value hfollows]
      exact hle
    · rw [normalize_value hfollows,hvalue]
      have h1 : (10 : ℚ) ^ (q - v.written.length) ≤ 10 ^ (q - 1) :=
        ten_pow_le (by rw [hw,List.length_cons]; push_cast; omega)
      have h2 : (10 : ℚ) ^ (q - 1) ≤ magnitude v.written q := by rw [hw]; exact magnitude_ge hx q
      simp only [value]
      linarith
  refine ⟨hsmall,hfits,⟨x,by rw [hw]; exact List.mem_cons_self ..,hx⟩,hle.trans hT,?_,?_⟩
  · rcases hrest with ⟨hr0,htr⟩ | ⟨hr0,htr,-⟩
    · have heq : magnitude v.written q = d.value * 2 ^ (-(bits : ℤ)) := by rw [hvalue,hr0]; simp
      simp only [value]
      rw [htr,heq,mul_lt_mul_iff_left₀ hpos]
      exact h.flag
    · have hrpos : 0 < (r : ℚ) * 2 ^ (-(bits : ℤ)) * 10 ^ (q - v.written.length) := by
        have : (0 : ℚ) < r := by exact_mod_cast hr0
        positivity
      refine iff_of_true htr ?_
      simp only [value]
      linarith
  · rcases hrest with ⟨hr0,-⟩ | ⟨-,-,hcap⟩
    · have heq : magnitude v.written q = d.value * 2 ^ (-(bits : ℤ)) := by rw [hvalue,hr0]; simp
      simp only [value]
      rw [heq]
      exact hsame
    · obtain ⟨hq1,hq2⟩ := hroom q (le_trans (by rw [hw]; exact magnitude_ge hx q) hle)
      have hk : -((800 : ℤ) - q) = q - v.written.length := by rw [hcap]; simp only [Bounds.capacity]; push_cast; ring
      have := hsame.cut (m := number v.written) (k := 800 - q) (by omega) (by omega) (by
        rw [hk,hvalue,magnitude]
        push_cast
        linarith)
      rw [hk] at this
      exact this

end Digits
end Ens.Number
