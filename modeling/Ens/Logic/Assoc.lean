import Mathlib.Data.Int.Notation
import Mathlib.Data.List.Pairwise
import Mathlib.Tactic.Common
import Mathlib.Order.Lattice

/-! # Sorted association lists

Entries in the order their keys sort by a comparison, one for each class of keys the comparison
calls equal. What an operation does to a list that an entry splits, it does on one side of the
entry or at it.
-/
namespace Ens.Assoc
variable {K V : Type*} {order : K → K → ℤ} {a b c key : K} {value : V} {e : K × V}
variable {l xs ys : List (K × V)}

/-- A comparison by a total preorder: negative, zero and positive as its first argument sorts
before, with or after its second. -/
structure Compares (order : K → K → ℤ) : Prop where
  swap : ∀ a b, (order b a).sign = -(order a b).sign
  trans : ∀ a b c, order a b ≤ 0 → order b c ≤ 0 → order a c ≤ 0

theorem Compares.pos_iff (h : Compares order) : 0 < order b a ↔ order a b < 0 := by
  rw [← Int.sign_eq_one_iff_pos,← Int.sign_eq_neg_one_iff_neg,h.swap a b]
  omega

theorem Compares.zero_iff (h : Compares order) : order b a = 0 ↔ order a b = 0 := by
  rw [← Int.sign_eq_zero_iff_zero,← Int.sign_eq_zero_iff_zero (a := order a b),h.swap a b]
  omega

theorem Compares.lt_of_lt_of_le (h : Compares order) (h1 : order a b < 0) (h2 : order b c ≤ 0) : order a c < 0 := by
  have h3 := h.trans a b c h1.le h2
  rcases h3.lt_or_eq with h4 | h4
  · exact h4
  · -- Otherwise c is at most a, and so b is at most a.
    have h5 := h.trans b c a h2 (h.zero_iff.mpr h4).le
    have := h.pos_iff.mpr h1
    omega

theorem Compares.lt_of_le_of_lt (h : Compares order) (h1 : order a b ≤ 0) (h2 : order b c < 0) : order a c < 0 := by
  have h3 := h.trans a b c h1 h2.le
  rcases h3.lt_or_eq with h4 | h4
  · exact h4
  · have h5 := h.trans c a b (h.zero_iff.mpr h4).le h1
    have := h.pos_iff.mpr h2
    omega

/-! ### The operations -/

/-- The keys sort strictly, so no two entries have keys that are equal to the comparison. -/
def Sorted (order : K → K → ℤ) (l : List (K × V)) : Prop := l.Pairwise fun x y => order x.1 y.1 < 0

def get (order : K → K → ℤ) (l : List (K × V)) (key : K) : Option V :=
  (l.find? fun x => decide (order key x.1 = 0)).map Prod.snd

def contains (order : K → K → ℤ) (l : List (K × V)) (key : K) : Bool := (get order l key).isSome

def set (order : K → K → ℤ) (key : K) (value : V) : List (K × V) → List (K × V)
  | [] => [(key,value)]
  | x :: rest =>
    if order key x.1 < 0 then (key,value) :: x :: rest
    else if order key x.1 = 0 then (x.1,value) :: rest
    else x :: set order key value rest

-- derives the equations once, for all the proofs below
attribute [local grind =] set

def erase (order : K → K → ℤ) (l : List (K × V)) (key : K) : List (K × V) :=
  l.filter fun x => decide (order key x.1 ≠ 0)

/-! ### One side of an entry -/

theorem sorted_split : Sorted order (xs ++ e :: ys) ↔ Sorted order xs ∧ Sorted order ys ∧
    (∀ x ∈ xs, order x.1 e.1 < 0) ∧ (∀ y ∈ ys, order e.1 y.1 < 0) ∧ ∀ x ∈ xs, ∀ y ∈ ys, order x.1 y.1 < 0 := by
  unfold Sorted
  rw [List.pairwise_append,List.pairwise_cons]
  constructor
  · rintro ⟨h1,⟨h2,h3⟩,h4⟩
    exact ⟨h1,h3,fun x hx => h4 x hx e (List.mem_cons_self ..),h2,
      fun x hx y hy => h4 x hx y (List.mem_cons_of_mem _ hy)⟩
  · rintro ⟨h1,h2,h3,h4,h5⟩
    refine ⟨h1,⟨h4,h2⟩,fun x hx y hy => ?_⟩
    rcases List.mem_cons.mp hy with rfl | hy
    · exact h3 x hx
    · exact h5 x hx y hy

theorem sorted_join (h : Compares order) (h1 : Sorted order xs) (h2 : Sorted order ys)
    (h3 : ∀ x ∈ xs, order x.1 e.1 < 0) (h4 : ∀ y ∈ ys, order e.1 y.1 < 0) : Sorted order (xs ++ e :: ys) :=
  sorted_split.2 ⟨h1,h2,h3,h4,fun x hx y hy => h.lt_of_lt_of_le (h3 x hx) (h4 y hy).le⟩

/-- A key at an entry or after it is after what is before the entry. -/
theorem Sorted.after (h : Sorted order (xs ++ e :: ys)) (hc : Compares order) (hk : 0 ≤ order key e.1) :
    ∀ x ∈ xs, 0 < order key x.1 := by
  intro x hx
  have h1 := (sorted_split.1 h).2.2.1 x hx
  rw [hc.pos_iff]
  refine hc.lt_of_lt_of_le h1 ?_
  by_contra hlt
  have := hc.pos_iff.mp (not_le.mp hlt)
  omega

theorem Sorted.before (h : Sorted order (xs ++ e :: ys)) (hc : Compares order) (hk : order key e.1 ≤ 0) :
    ∀ y ∈ ys, order key y.1 < 0 :=
  fun y hy => hc.lt_of_le_of_lt hk ((sorted_split.1 h).2.2.2.1 y hy)

theorem get_none (h : ∀ x ∈ l, order key x.1 ≠ 0) : get order l key = none := by
  rw [get,List.find?_eq_none.mpr fun x hx => by simpa using h x hx]
  rfl

theorem get_before (h : Sorted order (xs ++ e :: ys)) (hc : Compares order) (hk : order key e.1 < 0) :
    get order (xs ++ e :: ys) key = get order xs key := by
  have hnone : (e :: ys).find? (fun x => decide (order key x.1 = 0)) = none := by
    rw [List.find?_eq_none]
    intro y hy
    rcases List.mem_cons.mp hy with rfl | hy
    · simpa using hk.ne
    · simpa using (h.before hc hk.le y hy).ne
  rw [get,get,List.find?_append,hnone,Option.or_none]

theorem get_past (h : ∀ x ∈ xs, 0 < order key x.1) (l : List (K × V)) :
    get order (xs ++ l) key = get order l key := by
  have hnone : xs.find? (fun x => decide (order key x.1 = 0)) = none := by
    rw [List.find?_eq_none]
    intro x hx
    simpa using (h x hx).ne'
  rw [get,get,List.find?_append,hnone,Option.none_or]

theorem get_at (h : Sorted order (xs ++ e :: ys)) (hc : Compares order) (hk : order key e.1 = 0) :
    get order (xs ++ e :: ys) key = some e.2 := by
  rw [get_past (h.after hc hk.ge),get,List.find?_cons_of_pos (by simpa using hk)]
  rfl

theorem get_after (h : Sorted order (xs ++ e :: ys)) (hc : Compares order) (hk : 0 < order key e.1) :
    get order (xs ++ e :: ys) key = get order ys key := by
  rw [get_past (h.after hc hk.le),get,List.find?_cons_of_neg (by simpa using hk.ne')]
  rfl

theorem set_before (hk : order key e.1 < 0) :
    set order key value (xs ++ e :: ys) = set order key value xs ++ e :: ys := by
  induction xs with
  | nil => simp [set,hk]
  | cons x xs ih =>
    rw [List.cons_append,set,set,ih]
    split
    · rfl
    · split <;> rfl

theorem set_past (h : ∀ x ∈ xs, 0 < order key x.1) (l : List (K × V)) :
    set order key value (xs ++ l) = xs ++ set order key value l := by
  induction xs with
  | nil => rfl
  | cons x xs ih =>
    have hx := h x (List.mem_cons_self ..)
    rw [List.cons_append,set,if_neg hx.not_gt,if_neg hx.ne',ih fun y hy => h y (List.mem_cons_of_mem _ hy)]
    rfl

theorem set_at (h : Sorted order (xs ++ e :: ys)) (hc : Compares order) (hk : order key e.1 = 0) :
    set order key value (xs ++ e :: ys) = xs ++ (e.1,value) :: ys := by
  rw [set_past (h.after hc hk.ge),set,if_neg hk.ge.not_gt,if_pos hk]

theorem set_after (h : Sorted order (xs ++ e :: ys)) (hc : Compares order) (hk : 0 < order key e.1) :
    set order key value (xs ++ e :: ys) = xs ++ e :: set order key value ys := by
  rw [set_past (h.after hc hk.le),set,if_neg hk.not_gt,if_neg hk.ne']

theorem erase_eq (h : ∀ x ∈ l, order key x.1 ≠ 0) : erase order l key = l :=
  List.filter_eq_self.mpr fun x hx => decide_eq_true (h x hx)

theorem erase_before (h : Sorted order (xs ++ e :: ys)) (hc : Compares order) (hk : order key e.1 < 0) :
    erase order (xs ++ e :: ys) key = erase order xs key ++ e :: ys := by
  have hys : erase order ys key = ys := erase_eq fun y hy => (h.before hc hk.le y hy).ne
  rw [erase,List.filter_append,List.filter_cons_of_pos (by simpa using hk.ne)]
  exact congrArg (fun l => erase order xs key ++ e :: l) hys

theorem erase_at (h : Sorted order (xs ++ e :: ys)) (hc : Compares order) (hk : order key e.1 = 0) :
    erase order (xs ++ e :: ys) key = xs ++ ys := by
  have hxs : erase order xs key = xs := erase_eq fun x hx => (h.after hc hk.ge x hx).ne'
  have hys : erase order ys key = ys := erase_eq fun y hy => (h.before hc hk.le y hy).ne
  rw [erase,List.filter_append,List.filter_cons_of_neg (by simpa using hk)]
  exact congrArg₂ (· ++ ·) hxs hys

theorem erase_after (h : Sorted order (xs ++ e :: ys)) (hc : Compares order) (hk : 0 < order key e.1) :
    erase order (xs ++ e :: ys) key = xs ++ e :: erase order ys key := by
  have hxs : erase order xs key = xs := erase_eq fun x hx => (h.after hc hk.le x hx).ne'
  rw [erase,List.filter_append,List.filter_cons_of_pos (by simpa using hk.ne')]
  exact congrArg (· ++ e :: erase order ys key) hxs

/-! ### The order -/

theorem mem_set (h : e ∈ set order key value l) : e ∈ l ∨ e.1 = key ∨ ∃ x ∈ l, e.1 = x.1 := by
  induction l with
  | nil =>
    rw [set,List.mem_singleton] at h
    exact .inr (.inl (by rw [h]))
  | cons x l ih =>
    rw [set] at h
    split at h
    · rcases List.mem_cons.mp h with rfl | h
      · exact .inr (.inl rfl)
      · exact .inl h
    · split at h
      · rcases List.mem_cons.mp h with rfl | h
        · exact .inr (.inr ⟨x,List.mem_cons_self ..,rfl⟩)
        · exact .inl (List.mem_cons_of_mem _ h)
      · rcases List.mem_cons.mp h with rfl | h
        · exact .inl (List.mem_cons_self ..)
        · rcases ih h with h | h | ⟨y,hy,he⟩
          · exact .inl (List.mem_cons_of_mem _ h)
          · exact .inr (.inl h)
          · exact .inr (.inr ⟨y,List.mem_cons_of_mem _ hy,he⟩)

theorem set_sorted (hc : Compares order) (h : Sorted order l) : Sorted order (set order key value l) := by
  induction l with
  | nil => exact List.pairwise_singleton _ _
  | cons x l ih =>
    obtain ⟨hx,hl⟩ := List.pairwise_cons.mp h
    rw [set]
    split
    · rename_i hk
      refine List.pairwise_cons.mpr ⟨fun y hy => ?_,h⟩
      rcases List.mem_cons.mp hy with rfl | hy
      · exact hk
      · exact hc.lt_of_lt_of_le hk (hx y hy).le
    · split
      · exact List.pairwise_cons.mpr ⟨hx,hl⟩
      · rename_i h1 h2
        have hk : order x.1 key < 0 := hc.pos_iff.mp (by omega)
        refine List.pairwise_cons.mpr ⟨fun y hy => ?_,ih hl⟩
        rcases mem_set hy with hy | hy | ⟨z,hz,he⟩
        · exact hx y hy
        · rw [hy]; exact hk
        · rw [he]; exact hx z hz

theorem filter_sorted (h : Sorted order l) (p : K × V → Bool) : Sorted order (l.filter p) := h.filter p

end Ens.Assoc
