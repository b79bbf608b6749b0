import Mathlib.Logic.Relation
import Mathlib.Data.Set.Basic

/-! # Components of a graph

Nodes that reach each other belong together. What a closed set adds to a smaller closed set is one component if all of it goes through one
node.
-/
namespace Ens.Components
open Relation
variable {α : Type*} {E : α → α → Prop} {A C D : Set α} {a b c r : α}

/-- Each of two nodes reaches the other. -/
def Mutual (E : α → α → Prop) (a b : α) : Prop := ReflTransGen E a b ∧ ReflTransGen E b a

def Closed (E : α → α → Prop) (A : Set α) : Prop := ∀ a ∈ A, ∀ b, E a b → b ∈ A

theorem Closed.reach (h : Closed E A) (ha : a ∈ A) (hr : ReflTransGen E a b) : b ∈ A := by
  induction hr with
  | refl => exact ha
  | tail _ he ih => exact h _ ih _ he

theorem Mutual.symm (h : Mutual E a b) : Mutual E b a := ⟨h.2,h.1⟩

/-- The nodes between two closed sets are one component if they reach one of them and it reaches them. -/
theorem mutual_iff (hD : Closed E D) (hC : Closed E (C ∪ D)) (hdisjoint : ∀ a ∈ C, a ∉ D) (hto : ∀ a ∈ C, ReflTransGen E a r)
    (hfrom : ∀ a ∈ C, ReflTransGen E r a) (ha : a ∈ C) : Mutual E a b ↔ b ∈ C := by
  constructor
  · intro h
    exact (hC.reach (Or.inl ha) h.1).resolve_right fun hb => hdisjoint a ha (hD.reach hb h.2)
  · intro hb
    exact ⟨(hto a ha).trans (hfrom b hb),(hto b hb).trans (hfrom a ha)⟩

end Ens.Components
