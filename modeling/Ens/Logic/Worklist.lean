import Mathlib.Algebra.BigOperators.Group.Finset.Basic
import Mathlib.Data.Finset.Sort

/-! # A worklist over a graph

What the list reaches by the edges out of each node, a node found twice being followed once.
-/
namespace Ens.Worklist
variable {α : Type*} [DecidableEq α]

def visit (next : α → List α) : ℕ → List α → List α → List α
  | 0, _, found => found
  | _ + 1, [], found => found
  | n + 1, a :: pending, found =>
    if a ∈ found then visit next n pending found
    else visit next n ((next a).reverse ++ pending) (found ++ [a])

def left (next : α → List α) (U : Finset α) (pending found : List α) : ℕ :=
  pending.length + ∑ a ∈ U.filter (· ∉ found), (next a).length

variable {next : α → List α} {U : Finset α} {n : ℕ} {pending found : List α} {a : α}

theorem left_follow (ha : a ∈ U) (hf : a ∉ found) :
    left next U ((next a).reverse ++ pending) (found ++ [a]) + 1 = left next U (a :: pending) found := by
  have hsplit : U.filter (· ∉ found ++ [a]) = (U.filter (· ∉ found)).erase a := by
    ext b
    simp only [Finset.mem_filter,List.mem_append,List.mem_singleton,not_or,Finset.mem_erase]
    tauto
  have hsum := Finset.add_sum_erase (U.filter (· ∉ found)) (fun b => (next b).length) (Finset.mem_filter.mpr ⟨ha,hf⟩)
  rw [left,left,hsplit,List.length_append,List.length_reverse,List.length_cons,← hsum]
  omega

theorem subset_visit : found ⊆ visit next n pending found := by
  induction n generalizing pending found with
  | zero => exact List.Subset.refl _
  | succ n ih =>
    cases pending with
    | nil => exact List.Subset.refl _
    | cons a pending =>
      rw [visit]
      split_ifs
      · exact ih
      · exact List.Subset.trans (List.subset_append_left found [a]) ih

/-- With room for every entry the list may hold, what is found has all it started with and every edge out of it. -/
theorem visit_closed (hU : ∀ a ∈ U, ∀ b ∈ next a, b ∈ U) (hp : ∀ a ∈ pending, a ∈ U)
    (hf : ∀ a ∈ found, ∀ b ∈ next a, b ∈ found ∨ b ∈ pending) (hn : left next U pending found ≤ n) :
    (∀ a ∈ pending, a ∈ visit next n pending found) ∧
      ∀ a ∈ visit next n pending found, ∀ b ∈ next a, b ∈ visit next n pending found := by
  induction n generalizing pending found with
  | zero =>
    obtain rfl : pending = [] := List.eq_nil_of_length_eq_zero (by rw [left] at hn; omega)
    exact ⟨fun _ h => absurd h List.not_mem_nil,fun a ha b hb => (hf a ha b hb).resolve_right List.not_mem_nil⟩
  | succ n ih =>
    cases pending with
    | nil => exact ⟨fun _ h => absurd h List.not_mem_nil,fun a ha b hb => (hf a ha b hb).resolve_right List.not_mem_nil⟩
    | cons a pending =>
      have ha : a ∈ U := hp a List.mem_cons_self
      by_cases hin : a ∈ found
      · rw [visit,if_pos hin]
        have hedges : ∀ c ∈ found, ∀ b ∈ next c, b ∈ found ∨ b ∈ pending := fun c hc b hb =>
          (hf c hc b hb).elim .inl fun h => (List.mem_cons.mp h).elim (fun h => .inl (h ▸ hin)) .inr
        have hroom : left next U pending found ≤ n := by
          simp only [left,List.length_cons] at hn ⊢
          omega
        have hrest := ih (fun b hb => hp b (List.mem_cons_of_mem a hb)) hedges hroom
        refine ⟨fun b hb => ?_,hrest.2⟩
        rcases List.mem_cons.mp hb with rfl | hb
        · exact subset_visit hin
        · exact hrest.1 b hb
      · rw [visit,if_neg hin]
        have hinside : ∀ b ∈ (next a).reverse ++ pending, b ∈ U := fun b hb => (List.mem_append.mp hb).elim
          (fun hb => hU a ha b (List.mem_reverse.mp hb)) fun hb => hp b (List.mem_cons_of_mem a hb)
        have hedges : ∀ c ∈ found ++ [a], ∀ b ∈ next c, b ∈ found ++ [a] ∨ b ∈ (next a).reverse ++ pending := by
          intro c hc b hb
          rcases List.mem_append.mp hc with hc | hc
          · rcases hf c hc b hb with h | h
            · exact .inl (List.mem_append_left _ h)
            · rcases List.mem_cons.mp h with rfl | h
              · exact .inl (List.mem_append_right _ (List.mem_singleton_self _))
              · exact .inr (List.mem_append_right _ h)
          · rw [List.mem_singleton.mp hc] at hb
            exact .inr (List.mem_append_left _ (List.mem_reverse.mpr hb))
        have hroom : left next U ((next a).reverse ++ pending) (found ++ [a]) + 1 ≤ n + 1 := (left_follow ha hin).trans_le hn
        have hrest := ih hinside hedges (Nat.le_of_succ_le_succ hroom)
        refine ⟨fun b hb => ?_,hrest.2⟩
        rcases List.mem_cons.mp hb with rfl | hb
        · exact subset_visit (List.mem_append_right _ (List.mem_singleton_self _))
        · exact hrest.1 b (List.mem_append_right _ hb)

end Ens.Worklist
