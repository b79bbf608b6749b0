import Mathlib.Data.Nat.Find
import Mathlib.Data.List.Basic

/-! # Probing around a ring

A probe starts at a place of a ring and looks at one place after another until it may stop. It
finds the first place it may stop at, when there is one, within one round.
-/
namespace Ens.Probe
variable {n h : ℕ} {stop : ℕ → Bool} {next : ℕ → ℕ}

def seek (stop : ℕ → Bool) (next : ℕ → ℕ) : ℕ → ℕ → Option ℕ
  | 0, _ => none
  | fuel + 1, slot => if stop slot then some slot else seek stop next fuel (next slot)

/-- Every place of the ring is some number of steps from any start. -/
theorem exists_steps {i : ℕ} (hi : i < n) (h : ℕ) : ∃ d < n, (h + d) % n = i := by
  have hn : 0 < n := Nat.zero_lt_of_lt hi
  have hh := Nat.mod_lt h hn
  refine ⟨(i + (n - h % n)) % n,Nat.mod_lt _ hn,?_⟩
  rw [Nat.add_mod,Nat.mod_mod,← Nat.add_mod]
  have : (h % n + (i + (n - h % n))) % n = i := by
    rw [show h % n + (i + (n - h % n)) = i + n by omega,Nat.add_mod_right,Nat.mod_eq_of_lt hi]
  rwa [Nat.add_mod,Nat.mod_mod,← Nat.add_mod] at this

theorem exists_first (hex : ∃ i < n, stop i) (h : ℕ) :
    ∃ m < n, stop ((h + m) % n) ∧ ∀ j < m, stop ((h + j) % n) = false := by
  obtain ⟨i,hi,hs⟩ := hex
  obtain ⟨d,hd,rfl⟩ := exists_steps hi h
  have hfind : ∃ m, stop ((h + m) % n) := ⟨d,hs⟩
  refine ⟨Nat.find hfind,Nat.lt_of_le_of_lt (Nat.find_min' hfind hs) hd,Nat.find_spec hfind,fun j hj => ?_⟩
  simpa using Nat.find_min hfind hj

theorem seek_from {m i : ℕ} (fuel : ℕ) (hnext : ∀ i, next i = (i + 1) % n) (hm : stop ((h + m) % n))
    (hbefore : ∀ j < m, stop ((h + j) % n) = false) (hi : i ≤ m) (hfuel : m < fuel + i) :
    seek stop next fuel ((h + i) % n) = some ((h + m) % n) := by
  induction fuel generalizing i with
  | zero => omega
  | succ fuel ih =>
    rw [seek]
    rcases Nat.lt_or_eq_of_le hi with hlt | rfl
    · rw [hbefore i hlt,if_neg Bool.false_ne_true,hnext,Nat.mod_add_mod]
      exact ih hlt (by omega)
    · rw [if_pos hm]

theorem seek_first (stop : ℕ → Bool) (hnext : ∀ i, next i = (i + 1) % n) (hex : ∃ i < n, stop i) (h : ℕ) :
    ∃ m < n, seek stop next n (h % n) = some ((h + m) % n) ∧ stop ((h + m) % n) ∧
      ∀ j < m, stop ((h + j) % n) = false := by
  obtain ⟨m,hm,hs,hbefore⟩ := exists_first hex h
  refine ⟨m,hm,?_,hs,hbefore⟩
  have := seek_from n hnext hs hbefore (Nat.zero_le m) (by omega)
  rwa [Nat.add_zero] at this

end Ens.Probe
