import Ens.Logic.Loop

/-! # What a computation that may fail yields

A computation meets a postcondition on its value and another on its error. A sequence of two
meets what the second meets after every value of the first, and a loop is total: its body keeps
an invariant and makes a measure smaller.
-/
namespace Ens.Loop
variable {A B S R : Type} {E : Type} {m : Except E A} {f : A → Except E B}
variable {P Q : A → Prop} {V : B → Prop} {X Y : E → Prop}

/-- The value meets `Q`, or the error meets `X`. -/
def Yields (m : Except E A) (Q : A → Prop) (X : E → Prop) : Prop :=
  match m with
  | .ok a => Q a
  | .error e => X e

@[simp] theorem yields_ok {a : A} : Yields (.ok a : Except E A) Q X ↔ Q a := Iff.rfl

@[simp] theorem yields_error {e : E} : Yields (.error e : Except E A) Q X ↔ X e := Iff.rfl

theorem Yields.mono (h : Yields m P X) (hq : ∀ a, P a → Q a) (hx : ∀ e, X e → Y e) : Yields m Q Y := by
  cases m with
  | ok a => exact hq a h
  | error e => exact hx e h

theorem Yields.bind (h : Yields m P X) (hf : ∀ a, P a → Yields (f a) V X) : Yields (m >>= f) V X := by
  cases m with
  | ok a => exact hf a h
  | error e => exact h

theorem yields_loop {out : E} {body : S → Except E (Flow S R)} {I : S → Prop} {Q : R → Prop}
    (μ : S → ℕ) (hbody : ∀ s, I s → Yields (body s)
      (fun | .done r => Q r | .next s' => I s' ∧ μ s' < μ s) X)
    {fuel : ℕ} {s : S} (hI : I s) (hμ : μ s < fuel) : Yields (loop out body fuel s) Q X := by
  induction fuel generalizing s with
  | zero => omega
  | succ fuel ih =>
    have h := hbody s hI
    unfold loop
    cases hb : body s with
    | error e => rw [hb] at h; exact h
    | ok flow =>
      rw [hb] at h
      cases flow with
      | done r => exact h
      | next s' => exact ih h.1 (by have := h.2; omega)

end Ens.Loop
