import Ens.Packages.Again
import Ens.Packages.Versions
import Mathlib.Logic.Function.Iterate

/-! # The rounds one by one

A round that goes on brings in a batch without a problem and leaves what the next one starts from. The rounds are
those that go on and the one that ends them, if the limit is not reached first.
-/
namespace Ens.Packages
open Entries
variable {u : Universe} {co : Checkout} {previous : Lockfile} {r f : Run} {g g' : List Requirement} {ns p : List Str} {n : Str}
variable {q : Requirement} {k m : ℕ} {c : Choice}

def Run.pin (previous : Lockfile) (r : Run) : Run :=
  { r with gathered := (addLockPins previous (r.gathered,r.pinned)).1, pinned := (addLockPins previous (r.gathered,r.pinned)).2 }

def batch (u : Universe) (co : Checkout) (previous : Lockfile) (r : Run) : List (Choice × Brought) :=
  (outstanding r.settled (select r.gathered).1).map fun c => (c,bring u co previous c)

def Run.fold (u : Universe) (co : Checkout) (previous : Lockfile) (r : Run) : Run :=
  foldIn { r with problems := r.problems ++ (batch u co previous r).flatMap fun b => b.2.stated } (batch u co previous r)

def Run.next (u : Universe) (co : Checkout) (previous : Lockfile) (r : Run) : Run := (r.pin previous).fold u co previous

def GoesOn (u : Universe) (co : Checkout) (previous : Lockfile) (r : Run) : Prop :=
  (select (r.pin previous).gathered).2 = [] ∧ batch u co previous (r.pin previous) ≠ [] ∧
    (batch u co previous (r.pin previous)).filterMap (fun b => b.2.problem) = []

instance : Decidable (GoesOn u co previous r) := inferInstanceAs (Decidable (_ ∧ ¬_ = [] ∧ _))

def Run.ended (u : Universe) (co : Checkout) (previous : Lockfile) (r : Run) : Run :=
  let pinned := r.pin previous
  if (select pinned.gathered).2 ≠ [] then { pinned with problems := pinned.problems ++ (select pinned.gathered).2 }
  else if batch u co previous pinned = [] then pinned
  else
    let folded := pinned.fold u co previous
    { folded with problems := folded.problems ++ (select folded.gathered).2 ++
      (batch u co previous pinned).filterMap fun b => b.2.problem }

def stage (u : Universe) (co : Checkout) (previous : Lockfile) (r : Run) (m : ℕ) : Run := (Run.next u co previous)^[m] r

theorem stage_succ : stage u co previous r (m + 1) = (stage u co previous r m).next u co previous := Function.iterate_succ_apply' ..

theorem bringEverything_round : bringEverything u co previous (k + 1) r =
    if GoesOn u co previous r then bringEverything u co previous k (r.next u co previous) else r.ended u co previous := by
  have hround : bringEverything u co previous (k + 1) r =
      if (select (r.pin previous).gathered).2 ≠ [] then
        { r.pin previous with problems := (r.pin previous).problems ++ (select (r.pin previous).gathered).2 }
      else if batch u co previous (r.pin previous) = [] then r.pin previous
      else if (batch u co previous (r.pin previous)).filterMap (fun b => b.2.problem) ≠ [] then
        { r.next u co previous with problems := (r.next u co previous).problems ++ (select (r.next u co previous).gathered).2 ++
            (batch u co previous (r.pin previous)).filterMap fun b => b.2.problem }
      else bringEverything u co previous k (r.next u co previous) := rfl
  have hended : r.ended u co previous =
      if (select (r.pin previous).gathered).2 ≠ [] then
        { r.pin previous with problems := (r.pin previous).problems ++ (select (r.pin previous).gathered).2 }
      else if batch u co previous (r.pin previous) = [] then r.pin previous
      else
        { r.next u co previous with problems := (r.next u co previous).problems ++ (select (r.next u co previous).gathered).2 ++
            (batch u co previous (r.pin previous)).filterMap fun b => b.2.problem } := rfl
  rw [hround,hended]
  by_cases hf : (select (r.pin previous).gathered).2 = []
  · rw [if_neg (not_not.mpr hf),if_neg (not_not.mpr hf)]
    by_cases hb : batch u co previous (r.pin previous) = []
    · rw [if_pos hb,if_pos hb,if_neg fun hg : GoesOn u co previous r => hg.2.1 hb]
    · rw [if_neg hb,if_neg hb]
      by_cases hp : (batch u co previous (r.pin previous)).filterMap (fun b => b.2.problem) = []
      · rw [if_neg (not_not.mpr hp),if_pos (show GoesOn u co previous r from ⟨hf,hb,hp⟩)]
      · rw [if_pos hp,if_neg fun hg : GoesOn u co previous r => hp hg.2.2]
  · rw [if_pos hf,if_pos hf,if_neg fun hg : GoesOn u co previous r => hf hg.1]

variable (u co previous k r) in
/-- The rounds go on up to one that ends them, or up to the limit. -/
theorem bringEverything_stages : ∃ m ≤ k, (∀ i < m, GoesOn u co previous (stage u co previous r i)) ∧
    (m = k ∧ bringEverything u co previous k r = { stage u co previous r k with
      problems := (stage u co previous r k).problems ++ [.unsettled] } ∨
    m < k ∧ ¬GoesOn u co previous (stage u co previous r m) ∧
      bringEverything u co previous k r = (stage u co previous r m).ended u co previous) := by
  induction k generalizing r with
  | zero => exact ⟨0,Nat.le_refl 0,nofun,.inl ⟨rfl,rfl⟩⟩
  | succ k ih =>
    rw [bringEverything_round]
    by_cases hg : GoesOn u co previous r
    · obtain ⟨m,hm,hall,hend⟩ := ih (r.next u co previous)
      rw [if_pos hg]
      refine ⟨m + 1,Nat.succ_le_succ hm,fun i hi => ?_,hend.imp (fun h => ⟨congrArg (· + 1) h.1,h.2⟩) fun h =>
        ⟨Nat.succ_lt_succ h.1,h.2⟩⟩
      cases i with
      | zero => exact hg
      | succ i => exact hall i (Nat.lt_of_succ_lt_succ hi)
    · rw [if_neg hg]
      exact ⟨0,Nat.zero_le _,nofun,.inr ⟨Nat.succ_pos k,hg,rfl⟩⟩

/-! ### Rounds without a problem -/

theorem Run.fold_same : (r.fold u co previous).gathered = r.gathered ++ (batch u co previous r).flatMap (fun b => b.2.added) ∧
    (r.fold u co previous).pinned = r.pinned ∧
    (r.fold u co previous).problems = r.problems ++ (batch u co previous r).flatMap fun b => b.2.stated :=
  foldIn_same _ _

/-- A round without a problem: nothing stands against the requirements, and all is brought in. -/
structure Clean (u : Universe) (co : Checkout) (previous : Lockfile) (r : Run) : Prop where
  agreed : Agreed (r.pin previous).gathered
  brought : ∀ b ∈ batch u co previous (r.pin previous), b.2.problem = none ∧ b.2.stated = []

/-- When the rounds come to no problem, each of them was without one, and the last one brought in nothing. -/
theorem bringEverything_clean (h : (bringEverything u co previous k r).problems = []) : ∃ m < k,
    (∀ i < m, GoesOn u co previous (stage u co previous r i)) ∧ (∀ i ≤ m, Clean u co previous (stage u co previous r i)) ∧
      batch u co previous ((stage u co previous r m).pin previous) = [] ∧
      bringEverything u co previous k r = (stage u co previous r m).pin previous := by
  obtain ⟨m,hm,hall,⟨rfl,heq⟩ | ⟨hlt,hnot,heq⟩⟩ := bringEverything_stages u co previous r k
  · rw [heq] at h
    exact absurd (List.append_eq_nil_iff.mp h).2 nofun
  · rw [heq] at h ⊢
    unfold Run.ended at h ⊢
    dsimp only at h ⊢
    split at h
    · rename_i hf
      exact absurd (List.append_eq_nil_iff.mp h).2 hf
    · rename_i hf
      split at h
      · rename_i hb
        rw [if_neg hf,if_pos hb]
        -- what an earlier round reported would still be there
        have hkept (i : ℕ) (hi : i ≤ m) : (stage u co previous r i).problems = [] := by
          induction hi using Nat.decreasingInduction with
          | self => exact h
          | of_succ i hi ih =>
            rw [stage_succ] at ih
            exact (List.append_eq_nil_iff.mp (Run.fold_same.2.2.symm.trans ih)).1
        refine ⟨m,hlt,hall,fun i hi => ⟨?_,fun b hbm => ?_⟩,hb,rfl⟩
        · rcases Nat.lt_or_eq_of_le hi with hi | rfl
          · exact select_agreed.mp (hall i hi).1
          · exact select_agreed.mp (not_not.mp hf)
        · rcases Nat.lt_or_eq_of_le hi with hi | rfl
          · have hnext := hkept (i + 1) hi
            rw [stage_succ] at hnext
            have hstated := (List.append_eq_nil_iff.mp (Run.fold_same.2.2.symm.trans hnext)).2
            exact ⟨filterMap_nil (hall i hi).2.2 b hbm,List.flatMap_eq_nil_iff.mp hstated b hbm⟩
          · rw [hb] at hbm
            cases hbm
      · rename_i hb
        have hnil := (List.append_eq_nil_iff.mp h).2
        exact absurd ⟨not_not.mp hf,hb,hnil⟩ hnot

variable {P : Run → Prop}

/-- What the pins keep and each round without a problem keeps holds of what the rounds settled on, where nothing is
left to bring in. -/
theorem bringEverything_keeps (h : (bringEverything u co previous k r).problems = []) (h0 : P r)
    (hpin : ∀ r, P r → P (r.pin previous))
    (hfold : ∀ r, P r → Agreed r.gathered → (∀ b ∈ batch u co previous r, b.2.problem = none ∧ b.2.stated = []) →
      P (r.fold u co previous)) :
    P (bringEverything u co previous k r) ∧ Agreed (bringEverything u co previous k r).gathered ∧
      outstanding (bringEverything u co previous k r).settled (select (bringEverything u co previous k r).gathered).1 = [] := by
  obtain ⟨m,-,-,hclean,hb,heq⟩ := bringEverything_clean h
  have hall (i : ℕ) (hi : i ≤ m) : P (stage u co previous r i) := by
    induction i with
    | zero => exact h0
    | succ i ih =>
      rw [stage_succ]
      exact hfold _ (hpin _ (ih (by omega))) (hclean i (by omega)).agreed (hclean i (by omega)).brought
  rw [heq]
  exact ⟨hpin _ (hall m (Nat.le_refl m)),(hclean m (Nat.le_refl m)).agreed,List.map_eq_nil_iff.mp hb⟩

end Ens.Packages
