import Ens.Collections.SortedMap
import Mathlib.Data.Nat.Size

/-! # The tree of a sorted map

A rotation leaves the entries in their order and sets two heights right. So rebalancing a node
whose subtrees are balanced and at most two apart gives a balanced subtree that is no higher than
the taller of them by more than one.
-/
namespace Ens.Collections
open Assoc
variable {K V : Type} {order : K → K → ℤ} {key k : K} {value v : V} {l r t : Tree K V} {h : ℕ} {tally : Tree.Tally}

namespace Tree

def toList : Tree K V → List (K × V)
  | nil => []
  | node left key value right _ => left.toList ++ (key,value) :: right.toList

def size : Tree K V → ℕ
  | nil => 0
  | node left _ _ right _ => left.size + 1 + right.size

/-- Every node's height is one more than its taller child's, and its children's are at most one
apart. -/
def Balanced : Tree K V → Prop
  | nil => True
  | node left _ _ right height => left.Balanced ∧ right.Balanced ∧ height = 1 + max left.heightOf right.heightOf ∧
      left.heightOf ≤ right.heightOf + 1 ∧ right.heightOf ≤ left.heightOf + 1

def Search (order : K → K → ℤ) : Tree K V → Prop
  | nil => True
  | node left key _ right _ => (∀ e ∈ left.toList, order e.1 key < 0) ∧ (∀ e ∈ right.toList, order key e.1 < 0) ∧
      left.Search order ∧ right.Search order

theorem search_iff (hc : Compares order) (t : Tree K V) : t.Search order ↔ Sorted order t.toList := by
  induction t with
  | nil => exact iff_of_true trivial List.Pairwise.nil
  | node left key value right height ihl ihr =>
    rw [Search,toList,ihl,ihr]
    constructor
    · rintro ⟨h1,h2,h3,h4⟩
      exact sorted_join hc h3 h4 h1 h2
    · intro h
      obtain ⟨h1,h2,h3,h4,-⟩ := sorted_split.mp h
      exact ⟨h3,h4,h1,h2⟩

theorem toList_length (t : Tree K V) : t.toList.length = t.size := by
  induction t with
  | nil => rfl
  | node left key value right height ihl ihr =>
    rw [toList,size,List.length_append,List.length_cons,ihl,ihr]
    omega

/-! ### Rebalancing -/

@[simp] theorem heightOf_nil : (nil : Tree K V).heightOf = 0 := rfl

@[simp] theorem heightOf_node (l : Tree K V) (k : K) (v : V) (r : Tree K V) (h : ℕ) : (node l k v r h).heightOf = h := rfl

@[simp] theorem updateHeight_toList (l : Tree K V) (k : K) (v : V) (r : Tree K V) :
    (updateHeight l k v r).toList = l.toList ++ (k,v) :: r.toList := rfl

@[simp] theorem updateHeight_heightOf (l : Tree K V) (k : K) (v : V) (r : Tree K V) :
    (updateHeight l k v r).heightOf = 1 + max l.heightOf r.heightOf := by
  rw [updateHeight,heightOf]
  split <;> omega

theorem updateHeight_balanced (hl : l.Balanced) (hr : r.Balanced) (h1 : l.heightOf ≤ r.heightOf + 1)
    (h2 : r.heightOf ≤ l.heightOf + 1) : (updateHeight l k v r).Balanced :=
  ⟨hl,hr,updateHeight_heightOf l k v r,h1,h2⟩

/-- What rebalancing a node comes to: its entries in their order, balance, and a height as great
as its taller child's or one more. -/
structure Rebalances (l : Tree K V) (k : K) (v : V) (r t : Tree K V) : Prop where
  entries : t.toList = l.toList ++ (k,v) :: r.toList
  balanced : t.Balanced
  lower : max l.heightOf r.heightOf ≤ t.heightOf
  upper : t.heightOf ≤ max l.heightOf r.heightOf + 1

theorem rotatedRightAt_rebalances (hl : l.Balanced) (hr : r.Balanced) (hlr : l.heightOf = r.heightOf + 2) :
    Rebalances l k v r (rotatedRightAt l k v r h) := by
  cases l with
  | nil => simp at hlr
  | node pl pk pv pr ph =>
    obtain ⟨hpl,hpr,hph,h1,h2⟩ := hl
    rw [heightOf_node] at hlr
    cases pr with
    | nil =>
      rw [heightOf_nil] at h1 h2 hph
      refine ⟨by simp [rotatedRightAt,rotatedRight,toList],?_,?_,?_⟩
      · exact updateHeight_balanced hpl
          (updateHeight_balanced hpr hr (by rw [heightOf_nil]; omega) (by rw [heightOf_nil]; omega))
          (by rw [updateHeight_heightOf,heightOf_nil]; omega)
          (by rw [updateHeight_heightOf,heightOf_nil]; omega)
      · simp only [rotatedRightAt,rotatedRight,updateHeight_heightOf,heightOf_node,heightOf_nil]
        omega
      · simp only [rotatedRightAt,rotatedRight,updateHeight_heightOf,heightOf_node,heightOf_nil]
        omega
    | node ql qk qv qr qh =>
      obtain ⟨hql,hqr,hqh,h3,h4⟩ := hpr
      rw [heightOf_node] at h1 h2 hph
      by_cases hlean : pl.heightOf < (node ql qk qv qr qh).heightOf
      · have heq : rotatedRightAt (node pl pk pv (node ql qk qv qr qh) ph) k v r h =
            rotatedRight (updateHeight pl pk pv ql) qk qv qr k v r := by
          simp only [rotatedRightAt,if_pos hlean,rotatedLeft,updateHeight]
        rw [heq]
        refine ⟨by simp [rotatedRight,toList],?_,?_,?_⟩
        · refine updateHeight_balanced (updateHeight_balanced hpl hql ?_ ?_) (updateHeight_balanced hqr hr ?_ ?_) ?_ ?_
          all_goals simp only [updateHeight_heightOf,heightOf_node] at *
          all_goals omega
        all_goals simp only [rotatedRight,updateHeight_heightOf,heightOf_node] at *
        all_goals omega
      · have heq : rotatedRightAt (node pl pk pv (node ql qk qv qr qh) ph) k v r h =
            rotatedRight pl pk pv (node ql qk qv qr qh) k v r := by
          simp only [rotatedRightAt,if_neg hlean]
        rw [heq]
        refine ⟨by simp [rotatedRight,toList],?_,?_,?_⟩
        · refine updateHeight_balanced hpl (updateHeight_balanced ⟨hql,hqr,hqh,h3,h4⟩ hr ?_ ?_) ?_ ?_
          all_goals simp only [updateHeight_heightOf,heightOf_node] at *
          all_goals omega
        all_goals simp only [rotatedRight,updateHeight_heightOf,heightOf_node] at *
        all_goals omega

theorem rotatedLeftAt_rebalances (hl : l.Balanced) (hr : r.Balanced) (hlr : r.heightOf = l.heightOf + 2) :
    Rebalances l k v r (rotatedLeftAt l k v r h) := by
  cases r with
  | nil => simp at hlr
  | node pl pk pv pr ph =>
    obtain ⟨hpl,hpr,hph,h1,h2⟩ := hr
    rw [heightOf_node] at hlr
    cases pl with
    | nil =>
      rw [heightOf_nil] at h1 h2 hph
      refine ⟨by simp [rotatedLeftAt,rotatedLeft,toList],?_,?_,?_⟩
      · exact updateHeight_balanced
          (updateHeight_balanced hl hpl (by rw [heightOf_nil]; omega) (by rw [heightOf_nil]; omega)) hpr
          (by rw [updateHeight_heightOf,heightOf_nil]; omega)
          (by rw [updateHeight_heightOf,heightOf_nil]; omega)
      · simp only [rotatedLeftAt,rotatedLeft,updateHeight_heightOf,heightOf_node,heightOf_nil]
        omega
      · simp only [rotatedLeftAt,rotatedLeft,updateHeight_heightOf,heightOf_node,heightOf_nil]
        omega
    | node ql qk qv qr qh =>
      obtain ⟨hql,hqr,hqh,h3,h4⟩ := hpl
      rw [heightOf_node] at h1 h2 hph
      by_cases hlean : pr.heightOf < (node ql qk qv qr qh).heightOf
      · have heq : rotatedLeftAt l k v (node (node ql qk qv qr qh) pk pv pr ph) h =
            rotatedLeft l k v ql qk qv (updateHeight qr pk pv pr) := by
          simp only [rotatedLeftAt,if_pos hlean,rotatedRight,updateHeight]
        rw [heq]
        refine ⟨by simp [rotatedLeft,toList],?_,?_,?_⟩
        · refine updateHeight_balanced (updateHeight_balanced hl hql ?_ ?_) (updateHeight_balanced hqr hpr ?_ ?_) ?_ ?_
          all_goals simp only [updateHeight_heightOf,heightOf_node] at *
          all_goals omega
        all_goals simp only [rotatedLeft,updateHeight_heightOf,heightOf_node] at *
        all_goals omega
      · have heq : rotatedLeftAt l k v (node (node ql qk qv qr qh) pk pv pr ph) h =
            rotatedLeft l k v (node ql qk qv qr qh) pk pv pr := by
          simp only [rotatedLeftAt,if_neg hlean]
        rw [heq]
        refine ⟨by simp [rotatedLeft,toList],?_,?_,?_⟩
        · refine updateHeight_balanced (updateHeight_balanced hl ⟨hql,hqr,hqh,h3,h4⟩ ?_ ?_) hpr ?_ ?_
          all_goals simp only [updateHeight_heightOf,heightOf_node] at *
          all_goals omega
        all_goals simp only [rotatedLeft,updateHeight_heightOf,heightOf_node] at *
        all_goals omega

theorem rebalanced_rebalances (hl : l.Balanced) (hr : r.Balanced) (h1 : l.heightOf ≤ r.heightOf + 2)
    (h2 : r.heightOf ≤ l.heightOf + 2) : Rebalances l k v r (rebalanced l k v r h) := by
  unfold rebalanced
  split
  · exact rotatedRightAt_rebalances hl hr (by omega)
  split
  · exact rotatedLeftAt_rebalances hl hr (by omega)
  · refine ⟨rfl,updateHeight_balanced hl hr (by omega) (by omega),?_,?_⟩ <;> rw [updateHeight_heightOf] <;> omega

/-- A node whose subtrees are one apart at most keeps its height. -/
theorem rebalanced_heightOf (h1 : l.heightOf ≤ r.heightOf + 1) (h2 : r.heightOf ≤ l.heightOf + 1) :
    (rebalanced l k v r h).heightOf = 1 + max l.heightOf r.heightOf := by
  rw [rebalanced,if_neg (by omega),if_neg (by omega),updateHeight_heightOf]

end Tree
end Ens.Collections
