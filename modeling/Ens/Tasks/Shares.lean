import Ens.Logic.Long
import Mathlib.Data.List.Basic
import Mathlib.Data.Nat.Basic
import Mathlib.Data.Nat.Cast.Basic
import Mathlib.Tactic.Linarith

/-! # Ranges run in pieces

A range of indices is cut into pieces, one for each processor and never more than there are indices. A piece starts at its share of the
length, which is multiplied before it is divided.
-/
namespace Ens.Shares
open Long

def pieceCount (processors length : ℤ) : ℤ := if length < processors then length else processors

def shareStart (piece pieces length : ℤ) : ℤ := (wrap (piece * length)).tdiv pieces

def rangeLength (start stop : ℤ) : ℤ := if stop > start then wrap (stop - start) else 0

def range (processors start stop : ℤ) : List (ℤ × ℤ) :=
  let length := rangeLength start stop
  let pieces := pieceCount processors length
  (List.range pieces.toNat).map fun piece : ℕ =>
    (wrap (start + shareStart piece pieces length),wrap (start + shareStart (piece + 1) pieces length))

def indices (first stop : ℤ) : List ℤ := (List.range (stop - first).toNat).map fun i : ℕ => first + i

/-- The pieces are the range in order, their lengths differ by one at most, and no operation leaves the longs. -/
structure Shared (processors start stop : ℤ) : Prop where
  covers : ((range processors start stop).flatMap fun p => indices p.1 p.2) = indices start stop
  even : ∀ p ∈ range processors start stop, ∀ q ∈ range processors start stop, p.2 - p.1 ≤ q.2 - q.1 + 1
  difference : Fits (stop - start)
  product : ∀ piece, 0 ≤ piece → piece ≤ pieceCount processors (rangeLength start stop) → Fits (piece * rangeLength start stop)
  sum : ∀ piece, 0 ≤ piece → piece ≤ pieceCount processors (rangeLength start stop) →
    Fits (start + shareStart piece (pieceCount processors (rangeLength start stop)) (rangeLength start stop))

variable {processors start stop a b c : ℤ} {n p i : ℕ}

theorem indices_append (hab : a ≤ b) (hbc : b ≤ c) : indices a b ++ indices b c = indices a c := by
  have hsplit : (c - a).toNat = (b - a).toNat + (c - b).toNat := by omega
  rw [indices,indices,indices,hsplit,List.range_add,List.map_append,List.map_map]
  refine congrArg _ (List.map_congr_left fun i _ => ?_)
  simp only [Function.comp_apply]
  omega

theorem length_indices : (indices a b).length = (b - a).toNat := by simp [indices]

/-! ### Exact shares -/

/-- A share in numbers without a bound. -/
def share (p n i : ℕ) : ℕ := i * n / p

theorem share_step (hp : 0 < p) (n i : ℕ) : share p n i + n / p ≤ share p n (i + 1) ∧ share p n (i + 1) ≤ share p n i + n / p + 1 := by
  rw [share,share,Nat.succ_mul]
  constructor
  · rw [Nat.le_div_iff_mul_le hp,Nat.add_mul]
    exact Nat.add_le_add (Nat.div_mul_le_self _ _) (Nat.div_mul_le_self _ _)
  · have h1 := Nat.lt_mul_div_succ (i * n) hp
    have h2 := Nat.lt_mul_div_succ n hp
    have hlt : (i * n + n) / p < i * n / p + n / p + 2 := by
      rw [Nat.div_lt_iff_lt_mul hp]
      nlinarith
    omega

theorem share_le (hi : i ≤ p) : share p n i ≤ n := by
  rw [share]
  rcases Nat.eq_zero_or_pos p with rfl | hp
  · simp
  · rw [Nat.div_le_iff_le_mul_add_pred hp]
    have := Nat.mul_le_mul_right n hi
    omega

/-- What the length of a range and the number of its pieces stay below. -/
def Bounded (processors start stop : ℤ) : Prop := (stop - start) * min (stop - start) processors < 2 ^ 63

instance : Decidable (Bounded processors start stop) := inferInstanceAs (Decidable (_ < _))

section
variable (hp : 0 < processors) (hstart : Fits start) (hstop : Fits stop) (hle : start ≤ stop)
  (hb : Bounded processors start stop)

include hp hle hb

theorem Bounded.difference : Fits (stop - start) := by
  refine ⟨by omega,?_⟩
  rcases lt_or_ge 0 (stop - start) with hpos | hneg
  · have h1 : 1 ≤ min (stop - start) processors := by omega
    have := Int.mul_le_mul_of_nonneg_left h1 hpos.le
    rw [Bounded] at hb
    omega
  · omega

theorem Bounded.rangeLength_eq : rangeLength start stop = stop - start := by
  rw [rangeLength,wrap_eq (Bounded.difference hp hle hb)]
  split_ifs <;> omega

theorem Bounded.pieceCount_eq : pieceCount processors (rangeLength start stop) = min (stop - start) processors := by
  rw [Bounded.rangeLength_eq hp hle hb,pieceCount]
  split_ifs <;> omega

omit hp in
theorem Bounded.product {piece : ℤ} (h0 : 0 ≤ piece) (h1 : piece ≤ min (stop - start) processors) : Fits (piece * (stop - start)) := by
  have hmul : piece * (stop - start) ≤ min (stop - start) processors * (stop - start) := Int.mul_le_mul_of_nonneg_right h1 (by omega)
  have hpos : 0 ≤ piece * (stop - start) := Int.mul_nonneg h0 (by omega)
  rw [Bounded,Int.mul_comm] at hb
  constructor <;> omega

/-- A share is the one without a bound. -/
theorem Bounded.shareStart_eq (hi : i ≤ (min (stop - start) processors).toNat) :
    shareStart i (min (stop - start) processors) (stop - start) = share (min (stop - start) processors).toNat (stop - start).toNat i := by
  have hn : ((stop - start).toNat : ℤ) = stop - start := Int.toNat_of_nonneg (by omega)
  have hq : ((min (stop - start) processors).toNat : ℤ) = min (stop - start) processors := Int.toNat_of_nonneg (by omega)
  have hfits : Fits (i * (stop - start)) := Bounded.product hle hb (by omega) (by omega)
  rw [shareStart,wrap_eq hfits,Int.tdiv_eq_ediv_of_nonneg (Int.mul_nonneg (by omega) (by omega)),share]
  push_cast
  rw [hn,hq]

omit hp hb in
include hstart hstop in
theorem Bounded.sum (hi : i ≤ (min (stop - start) processors).toNat) :
    Fits (start + share (min (stop - start) processors).toNat (stop - start).toNat i) := by
  have := share_le (n := (stop - start).toNat) hi
  obtain ⟨hl,-⟩ := hstart
  obtain ⟨-,hr⟩ := hstop
  constructor <;> omega

include hstart hstop in
theorem Bounded.range_eq : range processors start stop = (List.range (min (stop - start) processors).toNat).map fun i : ℕ =>
    (start + (share (min (stop - start) processors).toNat (stop - start).toNat i : ℤ),
      start + (share (min (stop - start) processors).toNat (stop - start).toNat (i + 1) : ℤ)) := by
  rw [range,Bounded.pieceCount_eq hp hle hb,Bounded.rangeLength_eq hp hle hb]
  refine List.map_congr_left fun i hi => ?_
  have hi := List.mem_range.mp hi
  have h2 := Bounded.shareStart_eq hp hle hb (Nat.succ_le_of_lt hi)
  rw [Nat.succ_eq_add_one,Nat.cast_add,Nat.cast_one] at h2
  rw [Bounded.shareStart_eq hp hle hb hi.le,h2,wrap_eq (Bounded.sum hstart hstop hle hi.le),
    wrap_eq (Bounded.sum hstart hstop hle (Nat.succ_le_of_lt hi))]

end

theorem flatMap_indices (f : ℕ → ℤ) (hf : ∀ i, f i ≤ f (i + 1)) (k : ℕ) :
    ((List.range k).flatMap fun i => indices (f i) (f (i + 1))) = indices (f 0) (f k) ∧ f 0 ≤ f k := by
  induction k with
  | zero => simp [indices]
  | succ k ih =>
    rw [List.range_succ,List.flatMap_append,ih.1]
    simp only [List.flatMap_cons,List.flatMap_nil,List.append_nil]
    exact ⟨indices_append ih.2 (hf k),ih.2.trans (hf k)⟩

/-- Every range is shared exactly when its length times the number of its pieces is a long. -/
theorem shared_iff (hp : 0 < processors) (hstart : Fits start) (hstop : Fits stop) (hle : start ≤ stop) :
    Shared processors start stop ↔ Bounded processors start stop := by
  constructor
  · intro hs
    have hlen : rangeLength start stop = stop - start := by
      rw [rangeLength,wrap_eq hs.difference]
      split_ifs <;> omega
    have hcount : pieceCount processors (stop - start) = min (stop - start) processors := by
      rw [pieceCount]
      split_ifs <;> omega
    have hlast := hs.product _ (by rw [hlen,hcount]; omega) le_rfl
    rw [hlen,hcount,Int.mul_comm] at hlast
    exact hlast.2
  · intro hb
    have hlen := Bounded.rangeLength_eq hp hle hb
    have hcount := Bounded.pieceCount_eq hp hle hb
    have hrange := Bounded.range_eq hp hstart hstop hle hb
    have hdiff := Bounded.difference hp hle hb
    generalize hn : (stop - start).toNat = n at hrange
    generalize hk : (min (stop - start) processors).toNat = k at hrange
    have hkn : k = 0 → n = 0 := by omega
    refine ⟨?_,?_,hdiff,?_,?_⟩
    · have hmono : ∀ i, start + (share k n i : ℤ) ≤ start + (share k n (i + 1) : ℤ) := by
        intro i
        rcases Nat.eq_zero_or_pos k with rfl | hkpos
        · simp [share]
        · have hstep : share k n i ≤ share k n (i + 1) := le_trans (Nat.le_add_right _ _) (share_step hkpos n i).1
          omega
      have hall := (flatMap_indices (fun i => start + (share k n i : ℤ)) hmono k).1
      have hend : share k n k = n := by
        rcases Nat.eq_zero_or_pos k with rfl | hkpos
        · rw [hkn rfl]
          simp [share]
        · exact Nat.mul_div_cancel_left n hkpos
      have hzero : share k n 0 = 0 := by simp [share]
      have hstop' : start + (n : ℤ) = stop := by omega
      rw [hrange,List.flatMap_map,hall,hend,hzero,hstop',Nat.cast_zero,Int.add_zero]
    · intro p hpm q hqm
      rw [hrange,List.mem_map] at hpm hqm
      obtain ⟨i,hi,rfl⟩ := hpm
      obtain ⟨j,-,rfl⟩ := hqm
      have hkpos : 0 < k := Nat.pos_of_ne_zero fun h0 => by simp [h0] at hi
      have h1 := (share_step hkpos n i).2
      have h2 := (share_step hkpos n j).1
      generalize n / k = quotient at h1 h2
      dsimp only
      omega
    · intro piece h0 h1
      rw [hcount] at h1
      rw [hlen]
      exact Bounded.product hle hb h0 h1
    · intro piece h0 h1
      rw [hcount] at h1
      obtain ⟨i,rfl⟩ := Int.eq_ofNat_of_zero_le h0
      have hi : i ≤ (min (stop - start) processors).toNat := by omega
      rw [hcount,hlen,Bounded.shareStart_eq hp hle hb hi]
      exact Bounded.sum hstart hstop hle hi

/-- Ten indices for four processors. -/
theorem shared_ten : Shared 4 (-3) 7 := (shared_iff (by decide) (by decide) (by decide) (by decide)).mpr (by decide)

/-- The whole of the longs is longer than a long, and no piece of it is run. -/
theorem not_shared_all : Fits (-2 ^ 63) ∧ Fits (2 ^ 63 - 1) ∧ ¬Shared 4 (-2 ^ 63) (2 ^ 63 - 1) := by
  refine ⟨by decide,by decide,fun hs => ?_⟩
  have hnone : range 4 (-2 ^ 63) (2 ^ 63 - 1) = [] := by decide
  have hcovers := congrArg List.length hs.covers
  rw [hnone,length_indices] at hcovers
  exact absurd hcovers (by decide)

end Ens.Shares
