import Mathlib.Data.Set.Card
import Mathlib.Order.CompletePartialOrder

/-! # Rounds until nothing changes

A round takes a state to a state that holds at least as much and says whether anything is new.
-/
namespace Ens.Saturation
variable {σ β : Type*}

def untilSame (step : σ → σ × Bool) : ℕ → σ → Option σ
  | 0, _ => none
  | n + 1, s => if (step s).2 then untilSame step n (step s).1 else some (step s).1

-- derives the equations once, for all the proofs below
attribute [local grind =] untilSame

variable {step : σ → σ × Bool} {s t u : σ} {n m : ℕ} {I : σ → Prop}

theorem untilSame_unique (hn : untilSame step n s = some t) (hm : untilSame step m s = some u) : t = u := by
  induction n generalizing s m with
  | zero => cases hn
  | succ n ih =>
    cases m with
    | zero => cases hm
    | succ m =>
      rw [untilSame] at hn hm
      split_ifs at hn hm
      · exact ih hn hm
      · exact Option.some.inj (hn.symm.trans hm)

/-- The last round is one that changes nothing, from a state with all that every round keeps. -/
theorem untilSame_last (hI : ∀ s, I s → I (step s).1) (hs : I s) (hn : untilSame step n s = some t) :
    ∃ u, I u ∧ (step u).2 = false ∧ (step u).1 = t := by
  induction n generalizing s with
  | zero => cases hn
  | succ n ih =>
    rw [untilSame] at hn
    split_ifs at hn with hc
    · exact ih (hI s hs) hn
    · exact ⟨s,hs,Bool.eq_false_iff.mpr hc,Option.some.inj hn⟩

/-- What the first round leaves and every later one keeps holds at the end. -/
theorem untilSame_keeps (hI : ∀ s, I s → I (step s).1) (hs : I (step s).1) (hn : untilSame step n s = some t) : I t := by
  cases n with
  | zero => cases hn
  | succ n =>
    rw [untilSame] at hn
    split_ifs at hn
    · obtain ⟨u,hu,-,rfl⟩ := untilSame_last hI hs hn
      exact hI u hu
    · exact Option.some.inj hn ▸ hs

/-- Inside a finite set there are only finitely many rounds that add something. -/
theorem untilSame_ends (facts : σ → Set β) {F : Set β} (hF : F.Finite) (hI : ∀ s, I s → I (step s).1) (hsub : ∀ s, I s → facts s ⊆ F)
    (hgrow : ∀ s, I s → (step s).2 = true → facts s ⊂ facts (step s).1) (hs : I s) : ∃ n t, untilSame step n s = some t := by
  induction hk : (F \ facts s).ncard using Nat.strong_induction_on generalizing s with
  | _ k ih =>
    cases hc : (step s).2 with
    | false => exact ⟨1,(step s).1,by simp [untilSame,hc]⟩
    | true =>
      have hlt : (F \ facts (step s).1).ncard < k := by
        rw [← hk]
        refine Set.ncard_lt_ncard ⟨Set.sdiff_subset_sdiff_right (hgrow s hs hc).1,fun hback => ?_⟩ hF.sdiff
        obtain ⟨x,hx,hn⟩ := Set.exists_of_ssubset (hgrow s hs hc)
        exact (hback ⟨hsub _ (hI s hs) hx,hn⟩).2 hx
      obtain ⟨n,t,ht⟩ := ih _ hlt (hI s hs) rfl
      exact ⟨n + 1,t,by simp [untilSame,hc,ht]⟩

/-- Where every round that changes something makes a number smaller, as many rounds as it says are enough. -/
theorem untilSame_measure (m : σ → ℕ) (hdec : ∀ s, (step s).2 = true → m (step s).1 < m s) (hn : m s < n) : ∃ t, untilSame step n s = some t := by
  induction n generalizing s with
  | zero => exact absurd hn (Nat.not_lt_zero _)
  | succ n ih =>
    rw [untilSame]
    split_ifs with hc
    · exact ih (Nat.lt_of_lt_of_le (hdec s hc) (Nat.le_of_lt_succ hn))
    · exact ⟨_,rfl⟩

end Ens.Saturation
