import Mathlib.Data.List.Basic
import Mathlib.Tactic.Common

/-! # Binary heaps in a list

The value at an index is above those at twice the index and one or two more. A value that is out of order with its parent, or with its
children, is exchanged with it, and the place it goes to is the only one where the heap may still be out of order.
-/
namespace Ens.Heap
variable {α : Type*} {r : α → α → Prop} {xs : List α} {c i j : ℕ} {a b v : α}

def parent (i : ℕ) : ℕ := (i - 1) / 2

/-- The values of two places, if there are such, are in order. -/
def Above (r : α → α → Prop) (xs : List α) (i j : ℕ) : Prop := ∀ a b, xs[i]? = some a → xs[j]? = some b → r a b

/-- Every value is in order with its parent. -/
def Ordered (r : α → α → Prop) (xs : List α) : Prop := ∀ i, 0 < i → Above r xs (parent i) i

structure OrderedUp (r : α → α → Prop) (xs : List α) (hole : ℕ) : Prop where
  others : ∀ i, 0 < i → i ≠ hole → Above r xs (parent i) i
  past : ∀ i, 0 < i → parent i = hole → 0 < hole → Above r xs (parent hole) i

structure OrderedDown (r : α → α → Prop) (xs : List α) (hole : ℕ) : Prop where
  others : ∀ i, 0 < i → parent i ≠ hole → Above r xs (parent i) i
  past : ∀ i, 0 < i → parent i = hole → 0 < hole → Above r xs (parent hole) i

def exchanged (xs : List α) (i j : ℕ) (a b : α) : List α := (xs.set i b).set j a

theorem getElem?_exchanged (ha : xs[i]? = some a) (hb : xs[j]? = some b) (k : ℕ) :
    (exchanged xs i j a b)[k]? = if k = j then some a else if k = i then some b else xs[k]? := by
  have hi := (List.getElem?_eq_some_iff.mp ha).1
  have hj := (List.getElem?_eq_some_iff.mp hb).1
  rw [exchanged,List.getElem?_set,List.getElem?_set]
  split_ifs <;> grind

theorem exchanged_perm (ha : xs[i]? = some a) (hb : xs[j]? = some b) : (exchanged xs i j a b).Perm xs := by
  obtain ⟨hi,rfl⟩ := List.getElem?_eq_some_iff.mp ha
  obtain ⟨hj,rfl⟩ := List.getElem?_eq_some_iff.mp hb
  exact List.set_set_perm hi hj

theorem Ordered.first (h : Ordered r xs) (htrans : ∀ a b c, r a b → r b c → r a c) (hself : ∀ a, r a a) (hv : xs[0]? = some v) :
    ∀ w ∈ xs, r v w := by
  have hall : ∀ (i : ℕ) (w : α), xs[i]? = some w → r v w := by
    intro i
    induction i using Nat.strongRecOn with
    | ind i ih =>
      intro w hw
      rcases Nat.eq_zero_or_pos i with rfl | hpos
      · cases hv.symm.trans hw
        exact hself v
      · have hlt : parent i < i := by
          rw [parent]
          omega
        have hi := (List.getElem?_eq_some_iff.mp hw).1
        obtain ⟨u,hu⟩ : ∃ u, xs[parent i]? = some u := ⟨_,List.getElem?_eq_getElem (Nat.lt_trans hlt hi)⟩
        exact htrans v u w (ih _ hlt u hu) (h i hpos u w hu hw)
  intro w hw
  obtain ⟨i,hi⟩ := List.getElem?_of_mem hw
  exact hall i w hi

/-! ### Up -/

theorem OrderedUp.ordered_zero (h : OrderedUp r xs 0) : Ordered r xs := fun i hi => h.others i hi (Nat.ne_of_gt hi)

theorem OrderedUp.ordered {hole : ℕ} (h : OrderedUp r xs hole) (habove : Above r xs (parent hole) hole) : Ordered r xs := fun i hi => by
  by_cases hhole : i = hole
  · exact hhole ▸ habove
  · exact h.others i hi hhole

/-- A value below its parent's place is exchanged with the parent. -/
theorem OrderedUp.step {hole : ℕ} (h : OrderedUp r xs hole) (htrans : ∀ a b c, r a b → r b c → r a c) (hpos : 0 < hole)
    (hv : xs[hole]? = some v) (ha : xs[parent hole]? = some a) (hva : r v a) :
    OrderedUp r (exchanged xs hole (parent hole) v a) (parent hole) := by
  have hlt : parent hole < hole := by
    rw [parent]
    omega
  constructor
  · intro i hi hne x y hx hy
    rw [getElem?_exchanged hv ha] at hx hy
    rw [if_neg hne] at hy
    by_cases hih : i = hole
    · rw [if_pos hih] at hy
      rw [if_pos (by rw [hih])] at hx
      cases hx
      cases hy
      exact hva
    · rw [if_neg hih] at hy
      by_cases hp : parent i = parent hole
      · rw [if_pos hp] at hx
        cases hx
        exact htrans _ a _ hva (h.others i hi hih a y (hp ▸ ha) hy)
      · rw [if_neg hp] at hx
        by_cases hph : parent i = hole
        · rw [if_pos hph] at hx
          cases hx
          exact h.past i hi hph hpos a y ha hy
        · rw [if_neg hph] at hx
          exact h.others i hi hih x y hx hy
  · intro i hi hparent hp x y hx hy
    rw [getElem?_exchanged hv ha] at hx hy
    have hpp : parent (parent hole) < parent hole := by
      rw [parent.eq_def (parent hole)]
      omega
    rw [if_neg (by omega),if_neg (by omega)] at hx
    have hxa : r x a := h.others (parent hole) hp (by omega) x a hx ha
    have hne : i ≠ parent hole := by
      rintro rfl
      omega
    rw [if_neg hne] at hy
    split_ifs at hy with hh
    · cases hy
      exact hxa
    · exact htrans x a y hxa (h.others i hi hh a y (hparent ▸ ha) hy)

/-- A value at the end of a heap is out of order with its parent at most. -/
theorem Ordered.append (h : Ordered r xs) (v : α) : OrderedUp r (xs ++ [v]) xs.length := by
  constructor
  · intro i hi hne a b ha hb
    have hlt : i < xs.length := by
      have hin := (List.getElem?_eq_some_iff.mp hb).1
      rw [List.length_append,List.length_singleton] at hin
      omega
    rw [List.getElem?_append_left (by rw [parent]; omega)] at ha
    rw [List.getElem?_append_left hlt] at hb
    exact h i hi a b ha hb
  · intro i hi hparent _ a b _ hb
    have hin := (List.getElem?_eq_some_iff.mp hb).1
    rw [List.length_append,List.length_singleton] at hin
    rw [parent] at hparent
    omega

/-! ### Down -/

structure Smaller (r : α → α → Prop) (xs : List α) (hole c : ℕ) : Prop where
  pos : 0 < c
  child : parent c = hole
  above : ∀ i, 0 < i → parent i = hole → Above r xs c i

theorem OrderedDown.zero (h : ∀ i, 0 < i → parent i ≠ 0 → Above r xs (parent i) i) : OrderedDown r xs 0 :=
  ⟨h,fun _ _ _ hpos => absurd hpos (Nat.lt_irrefl 0)⟩

/-- The last value of a heap in the place of the first is out of order with its children at most. -/
theorem Ordered.replace {zs : List α} {last : α} (h : Ordered r (v :: (zs ++ [last]))) : OrderedDown r (last :: zs) 0 :=
  OrderedDown.zero fun i hi hparent a b ha hb => by
    have hin := (List.getElem?_eq_some_iff.mp hb).1
    have hkeep : ∀ k, 0 < k → k < (last :: zs).length → (last :: zs)[k]? = (v :: (zs ++ [last]))[k]? := by
      rintro (_ | k) hk hlt
      · omega
      · rw [List.getElem?_cons_succ,List.getElem?_cons_succ,List.getElem?_append_left (Nat.lt_of_succ_lt_succ hlt)]
    rw [hkeep _ (Nat.pos_of_ne_zero hparent) (by rw [parent]; omega)] at ha
    rw [hkeep i hi hin] at hb
    exact h i hi a b ha hb

theorem OrderedDown.ordered {hole : ℕ} (h : OrderedDown r xs hole) (habove : ∀ i, 0 < i → parent i = hole → Above r xs hole i) :
    Ordered r xs := fun i hi => by
  by_cases hhole : parent i = hole
  · exact hhole ▸ habove i hi hhole
  · exact h.others i hi hhole

/-- A value below one of its children is exchanged with the one above the other. -/
theorem OrderedDown.step {hole : ℕ} (h : OrderedDown r xs hole) (hc : Smaller r xs hole c)
    (hv : xs[hole]? = some v) (hb : xs[c]? = some b) (hbv : r b v) : OrderedDown r (exchanged xs hole c v b) c := by
  have hlt : hole < c := by
    have hparent := hc.child
    have hpos := hc.pos
    rw [parent] at hparent
    omega
  constructor
  · intro i hi hne x y hx hy
    rw [getElem?_exchanged hv hb] at hx hy
    rw [if_neg hne] at hx
    have hup : parent i < i := by
      rw [parent]
      omega
    split_ifs at hx hy with hp hic hih hic hih
    · cases hx; cases hy
      exact hbv
    · omega
    · cases hx
      exact hc.above i hi hp b y hb hy
    · exact absurd (hic ▸ hc.child) hp
    · cases hy
      exact h.past c hc.pos hc.child (by omega) x b (hih ▸ hx) hb
    · exact h.others i hi hp x y hx hy
  · intro i hi hparent hpos x y hx hy
    have hic : c < i := by
      rw [parent] at hparent
      omega
    rw [getElem?_exchanged hv hb] at hx hy
    rw [hc.child,if_neg (by omega),if_pos rfl] at hx
    rw [if_neg (by omega),if_neg (by omega)] at hy
    cases hx
    exact h.others i hi (by omega) b y (hparent ▸ hb) hy

end Ens.Heap
