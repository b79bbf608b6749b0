import Mathlib.Data.Nat.Notation

/-! # Machines that skip silent steps

A deterministic machine goes from one configuration to the next or ends with an outcome. A second machine may skip steps that show nothing,
and a third may name its configurations otherwise: neither can be told from the first by what it shows and how it ends.
-/
namespace Ens.Machine
variable {C D O S : Type*}

inductive Steps (step : C → C ⊕ O) : ℕ → C → C → Prop
  | refl (c : C) : Steps step 0 c c
  | head {c d e : C} {n : ℕ} : step c = .inl d → Steps step n d e → Steps step (n + 1) c e

inductive Silent (step : C → C ⊕ O) (shown : C → S) : ℕ → C → C → Prop
  | refl (c : C) : Silent step shown 0 c c
  | head {c d e : C} {n : ℕ} : step c = .inl d → shown d = shown c → Silent step shown n d e → Silent step shown (n + 1) c e

def Shows (step : C → C ⊕ O) (shown : C → S) (c : C) (s : S) : Prop := ∃ n d, Steps step n c d ∧ shown d = s

def Ends (step : C → C ⊕ O) (c : C) (o : O) : Prop := ∃ n d, Steps step n c d ∧ step d = .inr o

variable {step step' : C → C ⊕ O} {shown : C → S} {c d e : C} {k m n : ℕ} {s : S} {o : O}

theorem Steps.trans (h : Steps step m c d) (h' : Steps step n d e) : Steps step (m + n) c e := by
  induction h with
  | refl c => rwa [Nat.zero_add]
  | head hstep _ ih =>
    rw [Nat.add_right_comm]
    exact .head hstep (ih h')

theorem Silent.steps (h : Silent step shown n c d) : Steps step n c d := by
  induction h with
  | refl c => exact .refl c
  | head hstep _ _ ih => exact .head hstep ih

theorem Silent.shown_eq (h : Silent step shown n c d) : shown d = shown c := by
  induction h with
  | refl c => rfl
  | head _ hshown _ ih => exact ih.trans hshown

/-- A run from the start of silent steps is still on them, or it has come to their end. -/
theorem Silent.splits (h : Silent step shown k c d) (hrun : Steps step n c e) :
    (∃ e', step e = .inl e' ∧ shown e = shown d) ∨ ∃ left, n = k + left ∧ Steps step left d e := by
  induction h generalizing n with
  | refl c => exact .inr ⟨n,(Nat.zero_add n).symm,hrun⟩
  | @head c c' d k hstep hshown hrest ih =>
    cases hrun with
    | refl => exact .inl ⟨c',hstep,(hrest.shown_eq.trans hshown).symm⟩
    | head hstep' hrun' =>
      obtain rfl := Sum.inl.inj (hstep.symm.trans hstep')
      rcases ih hrun' with h | ⟨left,rfl,hleft⟩
      · exact .inl h
      · exact .inr ⟨left,Nat.add_right_comm k left 1,hleft⟩

/-- The machine after it skipped some silent steps follows every run of the machine before. -/
theorem skips_follow (hlast : ∀ c o, step c = .inr o → step' c = .inr o)
    (hnext : ∀ c d, step c = .inl d → ∃ k d', step' c = .inl d' ∧ Silent step shown k d d')
    (hrun : Steps step n c e) : ∃ m e', Steps step' m c e' ∧ shown e' = shown e ∧ ∀ o, step e = .inr o → step' e' = .inr o := by
  induction n using Nat.strongRecOn generalizing c with
  | ind n ih =>
    cases hrun with
    | refl => exact ⟨0,e,.refl e,rfl,hlast e⟩
    | @head _ d _ n hstep hrest =>
      obtain ⟨k,d',hstep',hsilent⟩ := hnext c d hstep
      rcases hsilent.splits hrest with ⟨e',he,hshown⟩ | ⟨left,rfl,hleft⟩
      · refine ⟨1,d',.head hstep' (.refl d'),hshown.symm,fun o ho => ?_⟩
        rw [he] at ho
        cases ho
      · obtain ⟨m,e',hm,hrest'⟩ := ih left (by omega) hleft
        exact ⟨m + 1,e',.head hstep' hm,hrest'⟩

theorem skips_lead (hnext : ∀ c d', step' c = .inl d' → ∃ k, Steps step k c d') (hrun : Steps step' n c e) : ∃ m, Steps step m c e := by
  induction hrun with
  | refl c => exact ⟨0,.refl c⟩
  | head hstep _ ih =>
    obtain ⟨k,hk⟩ := hnext _ _ hstep
    obtain ⟨m,hm⟩ := ih
    exact ⟨k + m,hk.trans hm⟩

/-- Skipping silent steps changes neither what a machine shows nor how it ends. -/
theorem skips_agree (hlast : ∀ c o, step c = .inr o → step' c = .inr o)
    (hnext : ∀ c d, step c = .inl d → ∃ k d', step' c = .inl d' ∧ Silent step shown k d d') (c : C) :
    (∀ s, Shows step' shown c s ↔ Shows step shown c s) ∧ ∀ o, Ends step' c o ↔ Ends step c o := by
  have hback : ∀ c d', step' c = .inl d' → ∃ k, Steps step k c d' := by
    intro c d' h
    cases hstep : step c with
    | inr o =>
      rw [hlast c o hstep] at h
      cases h
    | inl d =>
      obtain ⟨k,e,he,hsilent⟩ := hnext c d hstep
      obtain rfl := Sum.inl.inj (he.symm.trans h)
      exact ⟨k + 1,.head hstep hsilent.steps⟩
  have hend : ∀ c o, step' c = .inr o → step c = .inr o := by
    intro c o h
    cases hstep : step c with
    | inr o' => exact (hlast c o' hstep).symm.trans h
    | inl d =>
      obtain ⟨k,e,he,-⟩ := hnext c d hstep
      rw [he] at h
      cases h
  refine ⟨fun s => ⟨?_,?_⟩,fun o => ⟨?_,?_⟩⟩
  · rintro ⟨n,d,hrun,hs⟩
    obtain ⟨m,hm⟩ := skips_lead hback hrun
    exact ⟨m,d,hm,hs⟩
  · rintro ⟨n,d,hrun,hs⟩
    obtain ⟨m,d',hm,hshown,-⟩ := skips_follow hlast hnext hrun
    exact ⟨m,d',hm,hshown.trans hs⟩
  · rintro ⟨n,d,hrun,ho⟩
    obtain ⟨m,hm⟩ := skips_lead hback hrun
    exact ⟨m,d,hm,hend d o ho⟩
  · rintro ⟨n,d,hrun,ho⟩
    obtain ⟨m,d',hm,-,hlast'⟩ := skips_follow hlast hnext hrun
    exact ⟨m,d',hm,hlast' o ho⟩

/-! ### Other names -/

variable {after : D → D ⊕ O} {name : C → D} {I : C → Prop} {seen : D → S}

theorem Steps.renamed (hkeep : ∀ c d, I c → step c = .inl d → I d) (hstep : ∀ c, I c → after (name c) = (step c).map name id)
    (hc : I c) (h : Steps step n c d) : I d ∧ Steps after n (name c) (name d) := by
  induction h with
  | refl c => exact ⟨hc,.refl _⟩
  | head h _ ih =>
    obtain ⟨hd,hrun⟩ := ih (hkeep _ _ hc h)
    exact ⟨hd,.head (by rw [hstep _ hc,h]; rfl) hrun⟩

theorem Steps.named {d' : D} (hkeep : ∀ c d, I c → step c = .inl d → I d) (hstep : ∀ c, I c → after (name c) = (step c).map name id)
    (hc : I c) (h : Steps after n (name c) d') : ∃ d, d' = name d ∧ Steps step n c d := by
  induction n generalizing c with
  | zero =>
    cases h
    exact ⟨c,rfl,.refl c⟩
  | succ n ih =>
    cases h with
    | head h hrun =>
      rw [hstep c hc] at h
      cases hs : step c with
      | inr o =>
        rw [hs] at h
        cases h
      | inl e =>
        rw [hs] at h
        obtain rfl := Sum.inl.inj h
        obtain ⟨d,hd,hsteps⟩ := ih (hkeep c e hc hs) hrun
        exact ⟨d,hd,.head hs hsteps⟩

/-- A machine that names its configurations otherwise shows the same and ends alike. -/
theorem names_agree (hkeep : ∀ c d, I c → step c = .inl d → I d) (hstep : ∀ c, I c → after (name c) = (step c).map name id)
    (hseen : ∀ c, seen (name c) = shown c) (hc : I c) :
    (∀ s, Shows after seen (name c) s ↔ Shows step shown c s) ∧ ∀ o, Ends after (name c) o ↔ Ends step c o := by
  refine ⟨fun s => ⟨?_,?_⟩,fun o => ⟨?_,?_⟩⟩
  · rintro ⟨n,d',hrun,hs⟩
    obtain ⟨d,rfl,hsteps⟩ := hrun.named hkeep hstep hc
    exact ⟨n,d,hsteps,(hseen d).symm.trans hs⟩
  · rintro ⟨n,d,hrun,hs⟩
    exact ⟨n,name d,(hrun.renamed hkeep hstep hc).2,(hseen d).trans hs⟩
  · rintro ⟨n,d',hrun,ho⟩
    obtain ⟨d,rfl,hsteps⟩ := hrun.named hkeep hstep hc
    have hd := (hsteps.renamed hkeep hstep hc).1
    rw [hstep d hd] at ho
    cases hs : step d with
    | inl e =>
      rw [hs] at ho
      cases ho
    | inr o' =>
      rw [hs] at ho
      exact ⟨n,d,hsteps,hs.trans (congrArg Sum.inr (Sum.inr.inj ho))⟩
  · rintro ⟨n,d,hrun,ho⟩
    obtain ⟨hd,hsteps⟩ := hrun.renamed hkeep hstep hc
    exact ⟨n,name d,hsteps,by rw [hstep d hd,ho]; rfl⟩

end Ens.Machine
