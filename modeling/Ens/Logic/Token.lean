import Mathlib.Data.Int.Notation
import Mathlib.Tactic.Common

/-! # A token with one holder

A count that is the number of the holders of something at most one may hold. The token enters with
a holder, passes to another and leaves again.
-/
namespace Ens.Tokens
variable {H : Type*} {P Q : H → Prop} {k : ℤ} {a b : H}

/-- Nothing holds the token and the count is zero, or one does and the count is one. -/
def Token (P : H → Prop) (k : ℤ) : Prop := (k = 0 ∧ ∀ y, ¬P y) ∨ (k = 1 ∧ ∃ a, ∀ y, P y ↔ y = a)

theorem token_none (h : ∀ y, ¬P y) : Token P 0 := .inl ⟨rfl,h⟩

theorem Token.unique (h : Token P k) (ha : P a) (hb : P b) : a = b := by
  rcases h with ⟨-,h⟩ | ⟨-,c,h⟩
  · exact absurd ha (h a)
  · exact ((h a).mp ha).trans ((h b).mp hb).symm

theorem Token.one (h : Token P k) (ha : P a) : k = 1 := by
  rcases h with ⟨-,h⟩ | ⟨hk,-⟩
  · exact absurd ha (h a)
  · exact hk

theorem Token.free (h : Token P 0) : ¬P a := by
  rcases h with ⟨-,h⟩ | ⟨hk,-⟩
  · exact h a
  · cases hk

theorem Token.held (h : Token P k) (hk : k ≠ 0) : ∃ a, P a := by
  rcases h with ⟨h,-⟩ | ⟨-,a,ha⟩
  · exact absurd h hk
  · exact ⟨a,(ha a).mpr rfl⟩

theorem Token.same (h : Token P k) (hpq : ∀ y, Q y ↔ P y) : Token Q k := by
  rwa [show Q = P from funext fun y => propext (hpq y)]

theorem Token.enter (h : Token P 0) (hpq : ∀ y, Q y ↔ P y ∨ y = b) : Token Q 1 :=
  .inr ⟨rfl,b,fun y => (hpq y).trans (or_iff_right h.free)⟩

theorem Token.leave (h : Token P k) (ha : P a) (hpq : ∀ y, Q y ↔ P y ∧ y ≠ a) : Token Q (k - 1) := by
  rw [h.one ha]
  exact .inl ⟨rfl,fun y hy => ((hpq y).mp hy).2 (h.unique ((hpq y).mp hy).1 ha)⟩

theorem Token.pass (h : Token P k) (ha : P a) (hpq : ∀ y, Q y ↔ (P y ∧ y ≠ a) ∨ y = b) : Token Q k := by
  rw [h.one ha]
  refine .inr ⟨rfl,b,fun y => (hpq y).trans (or_iff_right fun hy => hy.2 (h.unique hy.1 ha))⟩

end Ens.Tokens
