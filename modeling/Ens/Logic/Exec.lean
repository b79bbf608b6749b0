import Mathlib.Data.List.Basic
import Mathlib.Data.List.Induction

/-! # Executions of a partial step function

A system is a step function that may refuse an action. An execution is the list of
actions performed, and a property of whole executions speaks of every prefix. The
rules here turn a fact about one step into a fact about every execution.
-/
namespace Ens.Exec
variable {S A : Type*}

def exec (step : S → A → Option S) : S → List A → Option S
  | s, [] => some s
  | s, a :: rest => (step s a).bind fun t => exec step t rest

variable {step : S → A → Option S} {s t : S} {as bs : List A} {a : A}

@[simp] theorem exec_nil : exec step s [] = some s := rfl

theorem exec_append : exec step s (as ++ bs) = (exec step s as).bind fun t => exec step t bs := by
  induction as generalizing s with
  | nil => simp
  | cons a as ih =>
    cases h : step s a with
    | none => simp [exec,h]
    | some t => simp [exec,h,ih]

theorem exec_snoc : exec step s (as ++ [a]) = (exec step s as).bind fun t => step t a := by
  rw [exec_append]
  cases exec step s as with
  | none => rfl
  | some t => cases h : step t a <;> simp [exec,h]

/-- An execution that ends with an action splits at the state before it. -/
theorem exec_snoc_some (h : exec step s (as ++ [a]) = some t) :
    ∃ u, exec step s as = some u ∧ step u a = some t := by
  rw [exec_snoc] at h
  exact Option.bind_eq_some_iff.mp h

/-- A property of the first state that every step keeps holds of every state reached. -/
theorem exec_invariant {I : S → Prop} (hs : I s)
    (hstep : ∀ s a t, I s → step s a = some t → I t) (h : exec step s as = some t) : I t := by
  induction as using List.reverseRecOn generalizing t with
  | nil => cases h; exact hs
  | append_singleton as a ih =>
    obtain ⟨u,hu,ht⟩ := exec_snoc_some h
    exact hstep u a t (ih hu) ht

/-- Every state an execution passes through has the property. -/
def HoldsAlong (step : S → A → Option S) (P : S → Prop) (s : S) (as : List A) : Prop :=
  ∀ pre, pre <+: as → ∀ u, exec step s pre = some u → P u

/-- Every step of an execution meets the condition in the state before it. -/
def StepsMeet (step : S → A → Option S) (C : S → A → Prop) (s : S) (as : List A) : Prop :=
  ∀ pre a, pre ++ [a] <+: as → ∀ u, exec step s pre = some u → C u a

theorem HoldsAlong.last {P : S → Prop} (hp : HoldsAlong step P s as)
    (h : exec step s as = some t) : P t := hp as List.prefix_rfl t h

theorem HoldsAlong.init {P : S → Prop} (hp : HoldsAlong step P s (as ++ [a])) :
    HoldsAlong step P s as :=
  fun pre hpre u hu => hp pre (hpre.trans (List.prefix_append as [a])) u hu

theorem StepsMeet.init {C : S → A → Prop} (hc : StepsMeet step C s (as ++ [a])) :
    StepsMeet step C s as :=
  fun pre b hpre u hu => hc pre b (hpre.trans (List.prefix_append as [a])) u hu

theorem StepsMeet.last {C : S → A → Prop} (hc : StepsMeet step C s (as ++ [a]))
    (h : exec step s as = some t) : C t a := hc as a List.prefix_rfl t h

theorem holdsAlong_snoc {P : S → Prop} (hp : HoldsAlong step P s as)
    (ha : ∀ t, exec step s (as ++ [a]) = some t → P t) : HoldsAlong step P s (as ++ [a]) := by
  intro pre hpre u hu
  rcases List.prefix_concat_iff.mp hpre with rfl | hpre
  · exact ha u hu
  · exact hp pre hpre u hu

theorem stepsMeet_snoc {C : S → A → Prop} (hc : StepsMeet step C s as)
    (ha : ∀ t, exec step s as = some t → C t a) : StepsMeet step C s (as ++ [a]) := by
  intro pre b hpre u hu
  rcases List.prefix_concat_iff.mp hpre with h | hpre
  · obtain ⟨rfl,hb⟩ := List.append_inj' h rfl
    cases hb
    exact ha u hu
  · exact hc pre b hpre u hu

theorem stepsMeet_nil {C : S → A → Prop} : StepsMeet step C s [] := by
  intro pre a hpre
  simp at hpre

theorem stepsMeet_cons {C : S → A → Prop} (ha : C s a) (h : step s a = some t)
    (hc : StepsMeet step C t as) : StepsMeet step C s (a :: as) := by
  intro pre b hpre u hu
  cases pre with
  | nil =>
    obtain ⟨rfl,-⟩ := List.cons_prefix_cons.mp hpre
    cases hu
    exact ha
  | cons c pre =>
    obtain ⟨rfl,hrest⟩ := List.cons_prefix_cons.mp hpre
    exact hc pre b hrest u (by simpa [exec,h] using hu)

def checks (step : S → A → Option S) (c : S → A → Bool) : S → List A → Bool
  | _, [] => true
  | s, a :: rest => c s a && (step s a).elim true fun t => checks step c t rest

theorem stepsMeet_of_checks {c : S → A → Bool} (h : checks step c s as) : StepsMeet step (fun s a => c s a) s as := by
  induction as generalizing s with
  | nil => exact stepsMeet_nil
  | cons a as ih =>
    obtain ⟨ha,hrest⟩ := Bool.and_eq_true_iff.mp h
    cases hs : step s a with
    | some t =>
      rw [hs] at hrest
      exact stepsMeet_cons ha hs (ih hrest)
    | none =>
      intro pre b hpre u hu
      cases pre with
      | nil =>
        obtain ⟨rfl,-⟩ := List.cons_prefix_cons.mp hpre
        cases hu
        exact ha
      | cons d pre =>
        obtain ⟨rfl,-⟩ := List.cons_prefix_cons.mp hpre
        simp [exec,hs] at hu

/-- A property kept by every step that meets a condition holds along every execution whose
steps all meet it. -/
theorem holdsAlong_of_stepsMeet {P : S → Prop} {C : S → A → Prop} (hs : P s)
    (hstep : ∀ s a t, P s → C s a → step s a = some t → P t)
    (hc : StepsMeet step C s as) : HoldsAlong step P s as := by
  induction as using List.reverseRecOn with
  | nil =>
    intro pre hpre u hu
    obtain rfl := List.prefix_nil.mp hpre
    cases hu
    exact hs
  | append_singleton as a ih =>
    refine holdsAlong_snoc (ih hc.init) ?_
    intro t ht
    obtain ⟨u,hu,hut⟩ := exec_snoc_some ht
    exact hstep u a t ((ih hc.init).last hu) (hc.last hu) hut

/-- Where the condition decides exactly whether one step keeps the property, the property
holds along an execution if and only if all of its steps meet the condition. -/
theorem holdsAlong_iff_stepsMeet {I P : S → Prop} {C : S → A → Prop} (hI : I s) (hP : P s)
    (hinv : ∀ s a t, I s → step s a = some t → I t)
    (hstep : ∀ s a t, I s → P s → step s a = some t → (P t ↔ C s a))
    (h : exec step s as = some t) : HoldsAlong step P s as ↔ StepsMeet step C s as := by
  induction as using List.reverseRecOn generalizing t with
  | nil =>
    constructor
    · intro _ pre a hpre
      simp at hpre
    · intro _ pre hpre u hu
      obtain rfl := List.prefix_nil.mp hpre
      cases hu
      exact hP
  | append_singleton as a ih =>
    obtain ⟨u,hu,hut⟩ := exec_snoc_some h
    have hIu := exec_invariant hI hinv hu
    constructor
    · intro hp
      refine stepsMeet_snoc ((ih hu).mp hp.init) ?_
      intro v hv
      obtain rfl : u = v := Option.some.inj (hu.symm.trans hv)
      exact (hstep u a t hIu (hp.init.last hu) hut).mp (hp.last h)
    · intro hc
      have hp := (ih hu).mpr hc.init
      refine holdsAlong_snoc hp ?_
      intro v hv
      obtain rfl : t = v := Option.some.inj (h.symm.trans hv)
      exact (hstep u a t hIu (hp.last hu) hut).mpr (hc.last hu)

/-- Where an invariant gives a property, is kept by the steps that meet a condition, and the others
lose the property, the property holds along an execution if and only if all of its steps meet it. -/
theorem holdsAlong_iff_of_kept {I P : S → Prop} {C : S → A → Prop} (hI : I s) (hP : ∀ s, I s → P s)
    (hkept : ∀ s a t, I s → C s a → step s a = some t → I t)
    (hlost : ∀ s a t, I s → ¬C s a → step s a = some t → ¬P t)
    (h : exec step s as = some t) : HoldsAlong step P s as ↔ StepsMeet step C s as := by
  have hof {bs : List A} (hc : StepsMeet step C s bs) : HoldsAlong step I s bs :=
    holdsAlong_of_stepsMeet hI hkept hc
  constructor
  · intro hp
    induction as using List.reverseRecOn generalizing t with
    | nil => exact stepsMeet_nil
    | append_singleton as a ih =>
      obtain ⟨u,hu,hut⟩ := exec_snoc_some h
      have hc := ih hu hp.init
      refine stepsMeet_snoc hc fun v hv => ?_
      obtain rfl : u = v := Option.some.inj (hu.symm.trans hv)
      by_contra hnot
      exact hlost u a t ((hof hc).last hu) hnot hut (hp.last h)
  · intro hc pre hpre u hu
    exact hP u (hof hc pre hpre u hu)

end Ens.Exec
