import Mathlib.Data.List.Nodup
import Mathlib.Data.List.Count

/-! # Counting when one element changes

The elements of a list are told apart by a key. A predicate that changes for the
element of one key, or the loss of that element, moves a count by that element alone.
-/
namespace Ens.Count
variable {α κ : Type*}

/-- Two predicates that agree off one element give counts that differ by that element. -/
theorem countP_change {key : α → κ} {P Q : α → Bool} {xs : List α} {p : α} (hp : p ∈ xs)
    (hn : (xs.map key).Nodup) (hagree : ∀ q ∈ xs, key q ≠ key p → P q = Q q) :
    xs.countP P + (Q p).toNat = xs.countP Q + (P p).toNat := by
  obtain ⟨as,bs,rfl⟩ := List.append_of_mem hp
  simp only [List.map_append,List.map_cons,List.nodup_append,List.nodup_cons] at hn
  obtain ⟨-,⟨hb,-⟩,hd⟩ := hn
  have ha : as.countP P = as.countP Q := List.countP_congr fun q hq => by
    have hk : key q ≠ key p := hd (key q) (List.mem_map_of_mem hq) (key p) List.mem_cons_self
    rw [hagree q (by simp [hq]) hk]
  have hbs : bs.countP P = bs.countP Q := List.countP_congr fun q hq => by
    have hk : key q ≠ key p := fun h => hb (h ▸ List.mem_map_of_mem hq)
    rw [hagree q (by simp [hq]) hk]
  simp only [List.countP_append,List.countP_cons,ha,hbs]
  cases P p <;> cases Q p <;> simp <;> omega

/-- Dropping the element of one key takes it alone out of a count. -/
theorem countP_drop [DecidableEq κ] {key : α → κ} {P : α → Bool} {xs : List α} {p : α} (hp : p ∈ xs)
    (hn : (xs.map key).Nodup) :
    (xs.filter fun q => key q ≠ key p).countP P + (P p).toNat = xs.countP P := by
  have hsplit : (xs.filter fun q => key q ≠ key p).countP P =
      xs.countP fun q => P q && decide (key q ≠ key p) := by
    rw [List.countP_filter]
  rw [hsplit]
  have h := countP_change (P := fun q => P q && decide (key q ≠ key p)) (Q := P) hp hn
    (fun q _ hk => by simp [hk])
  simpa using h

theorem eq_of_key {key : α → κ} {xs : List α} (hn : (xs.map key).Nodup) {p q : α} (hp : p ∈ xs)
    (hq : q ∈ xs) (h : key p = key q) : p = q := List.inj_on_of_nodup_map hn hp hq h

end Ens.Count
