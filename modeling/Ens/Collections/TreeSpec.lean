import Ens.Collections.Balance

/-! # What the operations on the tree do to its entries

Each is the operation on the sorted list of the entries, keeps the tree balanced and changes its
height by one at most.
-/
namespace Ens.Collections
open Assoc Loop
variable {K V : Type} {order : K → K → ℤ} {key k : K} {value v : V} {l r t : Tree K V} {h : ℕ} {tally : Tree.Tally}
variable {nodes : List (K × V)}

namespace Tree

theorem findNode_get (hc : Compares order) (hs : Sorted order t.toList) :
    (t.findNode order key).map Prod.snd = get order t.toList key := by
  induction t with
  | nil => rfl
  | node left k v right h ihl ihr =>
    rw [toList] at hs ⊢
    obtain ⟨hl,hr,-⟩ := sorted_split.mp hs
    rw [findNode]
    rcases lt_trichotomy (order key k) 0 with hk | hk | hk
    · rw [if_neg hk.ne,if_pos hk,ihl hl,get_before hs hc hk]
    · rw [if_pos hk,get_at hs hc hk]
      rfl
    · rw [if_neg hk.ne',if_neg hk.not_gt,ihr hr,get_after hs hc hk]

/-! ### A subtree in another's place -/

/-- A balanced subtree of given entries that is at most one higher or lower than another, and a
tally of how many more entries it has. -/
structure Replaces (t : Tree K V) (tally : Tally) (xs : List (K × V)) (r : Tree K V × Tally) : Prop where
  entries : r.1.toList = xs
  balanced : r.1.Balanced
  lower : t.heightOf ≤ r.1.heightOf + 1
  upper : r.1.heightOf ≤ t.heightOf + 1
  count : r.2.count - tally.count = (xs.length : ℤ) - t.toList.length

theorem replaces_self (hb : t.Balanced) (tally : Tally) : Replaces t tally t.toList (t,tally) :=
  ⟨rfl,hb,Nat.le_succ _,Nat.le_succ _,by dsimp only; omega⟩

/-- The subtree at the left child of a balanced node replaced, and the node rebalanced. -/
theorem Replaces.left {xs : List (K × V)} {p : Tree K V × Tally} (hp : Replaces l tally xs p)
    (hb : (node l k v r h).Balanced) :
    Replaces (node l k v r h) tally (xs ++ (k,v) :: r.toList) (rebalanced p.1 k v r h,p.2) := by
  obtain ⟨-,hbr,hh,h1,h2⟩ := hb
  obtain ⟨he,hb',h3,h4,hcount⟩ := hp
  have hreb := rebalanced_rebalances (k := k) (v := v) (h := h) hb' hbr (by omega) (by omega)
  have heq := rebalanced_heightOf (l := p.1) (r := r) (k := k) (v := v) (h := h)
  have hlow := hreb.lower
  have hup := hreb.upper
  refine ⟨by rw [hreb.entries,he],hreb.balanced,?_,?_,?_⟩
  · rw [heightOf_node]; dsimp only; omega
  · rw [heightOf_node]; dsimp only; omega
  · simp only [toList,List.length_append,List.length_cons]
    omega

/-- The same at the right child, where the node may take another entry. -/
theorem Replaces.right {ys : List (K × V)} {p : Tree K V × Tally} {k' : K} {v' : V} (hp : Replaces r tally ys p)
    (hb : (node l k v r h).Balanced) :
    Replaces (node l k v r h) tally (l.toList ++ (k',v') :: ys) (rebalanced l k' v' p.1 h,p.2) := by
  obtain ⟨hbl,-,hh,h1,h2⟩ := hb
  obtain ⟨he,hb',h3,h4,hcount⟩ := hp
  have hreb := rebalanced_rebalances (k := k') (v := v') (h := h) hbl hb' (by omega) (by omega)
  have heq := rebalanced_heightOf (l := l) (r := p.1) (k := k') (v := v') (h := h)
  have hlow := hreb.lower
  have hup := hreb.upper
  refine ⟨by rw [hreb.entries,he],hreb.balanced,?_,?_,?_⟩
  · rw [heightOf_node]; dsimp only; omega
  · rw [heightOf_node]; dsimp only; omega
  · simp only [toList,List.length_append,List.length_cons]
    omega

theorem inserted_replaces (hc : Compares order) (hs : Sorted order t.toList) (hb : t.Balanced) :
    Replaces t tally (set order key value t.toList) (t.inserted order key value tally) := by
  induction t with
  | nil =>
    refine ⟨rfl,⟨trivial,trivial,rfl,by simp,by simp⟩,Nat.zero_le _,le_refl _,?_⟩
    simp only [inserted,toList,Assoc.set,List.length_singleton,List.length_nil]
    omega
  | node left k v right h ihl ihr =>
    rw [toList] at hs
    obtain ⟨hl,hr,-⟩ := sorted_split.mp hs
    rw [inserted,toList]
    rcases lt_trichotomy (order key k) 0 with hk | hk | hk
    · rw [if_neg hk.ne,if_pos hk,set_before hk]
      exact (ihl hl hb.1).left hb
    · rw [if_pos hk,set_at hs hc hk]
      exact ⟨rfl,hb,Nat.le_succ _,Nat.le_succ _,by simp [toList]⟩
    · rw [if_neg hk.ne',if_neg hk.not_gt,set_after hs hc hk]
      exact (ihr hr hb.2.1).right hb

theorem leftmost_head (l : Tree K V) (k : K) (v : V) (ys : List (K × V)) :
    (l.toList ++ (k,v) :: ys).head? = some (leftmost l k v) := by
  induction l generalizing k v ys with
  | nil => rfl
  | node left key value right h ihl _ =>
    rw [toList,List.append_assoc,leftmost]
    exact ihl key value _

theorem rightmost_getLast (r : Tree K V) (k : K) (v : V) (xs : List (K × V)) :
    (xs ++ (k,v) :: r.toList).getLast? = some (rightmost k v r) := by
  induction r generalizing k v xs with
  | nil => simp [toList,rightmost]
  | node left key value right h _ ihr =>
    rw [toList,← List.cons_append,← List.append_assoc,rightmost]
    exact ihr key value _

/-- The leftmost entry goes first, and the others stay in a balanced subtree. -/
theorem withoutLeftmost_replaces (hb : (node l k v r h).Balanced) (tally : Tally) :
    ∃ ys, (node l k v r h).toList = leftmost l k v :: ys ∧
      Replaces (node l k v r h) tally ys (withoutLeftmost l k v r h,⟨tally.count - 1,tally.changes + 1⟩) := by
  induction l generalizing k v r h with
  | nil =>
    obtain ⟨-,hbr,hh,h1,h2⟩ := hb
    rw [heightOf_nil] at hh h2
    refine ⟨r.toList,rfl,rfl,hbr,?_,?_,?_⟩
    · rw [heightOf_node,withoutLeftmost]; dsimp only; omega
    · rw [heightOf_node,withoutLeftmost]; dsimp only; omega
    · simp only [toList,List.nil_append,List.length_cons]
      omega
  | node left key value right height ihl _ =>
    obtain ⟨ys,hys,hrep⟩ := ihl hb.1
    exact ⟨ys ++ (k,v) :: r.toList,by rw [toList,hys]; rfl,hrep.left hb⟩

theorem without_replaces (hc : Compares order) (hs : Sorted order t.toList) (hb : t.Balanced) :
    Replaces t tally (erase order t.toList key) (t.without order key tally) := by
  induction t with
  | nil => exact replaces_self hb tally
  | node left k v right h ihl ihr =>
    rw [toList] at hs
    obtain ⟨hl,hr,-⟩ := sorted_split.mp hs
    rw [without,toList]
    rcases lt_trichotomy (order key k) 0 with hk | hk | hk
    · rw [if_pos hk,erase_before hs hc hk]
      exact (ihl hl hb.1).left hb
    · rw [if_neg hk.not_lt,if_neg hk.not_gt,erase_at hs hc hk]
      have hb0 := hb
      obtain ⟨hbl,hbr,hh,h1,h2⟩ := hb
      cases left with
      | nil =>
        rw [heightOf_nil] at hh h2
        refine ⟨rfl,hbr,?_,?_,?_⟩
        · rw [heightOf_node]; dsimp only; omega
        · rw [heightOf_node]; dsimp only; omega
        · simp only [toList,List.nil_append,List.length_cons]
          omega
      | node ll lk lv lr lh =>
        cases right with
        | nil =>
          rw [heightOf_nil,heightOf_node] at *
          refine ⟨by simp [toList],hbl,?_,?_,?_⟩
          · rw [heightOf_node]; dsimp only [heightOf]; omega
          · rw [heightOf_node]; dsimp only [heightOf]; omega
          · simp only [toList,List.append_nil,List.length_append,List.length_cons,List.length_nil]
            omega
        | node rl rk rv rr rh =>
          obtain ⟨ys,hys,hrep⟩ := withoutLeftmost_replaces hbr tally
          rw [hys]
          exact hrep.right hb0
    · rw [if_neg hk.not_gt,if_pos hk,erase_after hs hc hk]
      exact (ihr hr hb.2.1).right hb

/-! ### Rebuilding and copying -/

theorem size_half {n : ℕ} (h : 0 < n) : Nat.size n = Nat.size (n / 2) + 1 := by
  apply le_antisymm
  · rw [Nat.size_le,Nat.pow_succ]
    have := Nat.lt_size_self (n / 2)
    omega
  · have hpos := Nat.size_pos.mpr h
    have hlt := Nat.lt_size_self n
    have hle : Nat.size (n / 2) ≤ Nat.size n - 1 := by
      obtain ⟨m,hm⟩ : ∃ m, Nat.size n = m + 1 := ⟨Nat.size n - 1,by omega⟩
      rw [hm,Nat.pow_succ] at hlt
      rw [Nat.size_le,hm,Nat.add_sub_cancel]
      omega
    omega

theorem size_succ_le (n : ℕ) : Nat.size (n + 1) ≤ Nat.size n + 1 := by
  rw [Nat.size_le,Nat.pow_succ]
  have := Nat.lt_size_self n
  omega

/-- A part of a list built with its middle on top is balanced, and as high as its length has bits. -/
theorem treeOf_builds (n : ℕ) {low high : ℤ} (h0 : 0 ≤ low) (hn : high + 1 - low = n) (hh : high < nodes.length) :
    ∃ t, treeOf nodes low high = .ok t ∧ t.toList = (nodes.drop low.toNat).take n ∧ t.Balanced ∧
      t.heightOf = Nat.size n := by
  induction n using Nat.strong_induction_on generalizing low high with
  | _ n ih =>
    rw [treeOf]
    by_cases hlt : high < low
    · obtain rfl : n = 0 := by omega
      exact ⟨nil,by rw [if_pos hlt],by simp [toList],trivial,by simp⟩
    · rw [if_neg hlt]
      dsimp only
      obtain ⟨m,hm⟩ : ∃ m : ℕ, (low + high) / 2 = m := ⟨((low + high) / 2).toNat,by omega⟩
      obtain ⟨i,rfl⟩ : ∃ i : ℕ, low = i := ⟨low.toNat,by omega⟩
      rw [hm,Int.toNat_natCast]
      have hlen : m < nodes.length := by omega
      rw [List.getElem?_eq_getElem hlen]
      -- The part after the middle is as long as the part before it or one longer.
      obtain ⟨a,ha⟩ : ∃ a, m = i + a := ⟨m - i,by omega⟩
      obtain ⟨b,hb⟩ : ∃ b : ℕ, high = m + b := ⟨(high - m).toNat,by omega⟩
      have hab : a ≤ b ∧ b ≤ a + 1 := by omega
      obtain rfl : n = a + (1 + b) := by omega
      have hleft : ((m : ℤ) - 1) + 1 - i = a := by omega
      have hright : (high : ℤ) + 1 - (m + 1) = b := by omega
      obtain ⟨l,hl,hll,hlb,hlh⟩ := ih a (by omega) (by omega) hleft (by omega)
      obtain ⟨r,hr,hrl,hrb,hrh⟩ := ih b (by omega) (by omega) hright hh
      have hsize := size_half (show 0 < a + (1 + b) by omega)
      rw [show (a + (1 + b)) / 2 = b by omega] at hsize
      have h1 := Nat.size_le_size hab.1
      have h2 := (Nat.size_le_size hab.2).trans (size_succ_le a)
      refine ⟨updateHeight l nodes[m].1 nodes[m].2 r,by simp only [hl,hr,ok_bind],?_,
        updateHeight_balanced hlb hrb (by omega) (by omega),by rw [updateHeight_heightOf]; omega⟩
      have hdrop : (nodes.drop i).drop a = nodes[m] :: nodes.drop (m + 1) := by
        rw [List.drop_drop,← ha]
        exact List.drop_eq_getElem_cons hlen
      rw [updateHeight_toList,hll,hrl,Int.toNat_natCast,List.take_add,hdrop,Nat.add_comm 1 b,List.take_succ_cons]
      rfl

theorem copyOf_eq (t : Tree K V) : t.copyOf = t := by
  induction t with
  | nil => rfl
  | node left key value right h ihl ihr => rw [copyOf,ihl,ihr]

end Tree

namespace SortedMap

/-! ### Walks -/

def ahead (pending : List ((K × V) × Tree K V)) : List (K × V) := pending.flatMap fun p => p.1 :: p.2.toList

theorem descend_ahead (t : Tree K V) (pending : List ((K × V) × Tree K V)) :
    ahead (descend t pending) = t.toList ++ ahead pending := by
  induction t generalizing pending with
  | nil => rfl
  | node left key value right h ihl _ =>
    rw [descend,ihl,Tree.toList,List.append_assoc]
    rfl

theorem length_lt_rounds (t : Tree K V) : t.toList.length < rounds t := by
  induction t with
  | nil => exact Nat.one_pos
  | node left key value right h ihl ihr =>
    rw [Tree.toList,rounds,List.length_append,List.length_cons]
    omega

/-- A loop over a walk of a map that does not change sees the entries in order. -/
theorem walked_eq {A : Type} (m : SortedMap K V) (visit : A → K × V → A) (start : A) :
    m.walked visit start = .ok (m.root.toList.foldl visit start) := by
  have hwalk {n : ℕ} {pending : List ((K × V) × Tree K V)} {seen : A} (hn : (ahead pending).length < n) :
      loop .endless (m.walkRound visit) n (⟨m.changes,pending⟩,seen) = .ok ((ahead pending).foldl visit seen) := by
    induction n generalizing pending seen with
    | zero => omega
    | succ n ih =>
      cases pending with
      | nil =>
        have hnil : ahead ([] : List ((K × V) × Tree K V)) = [] := rfl
        rw [hnil,List.foldl_nil]
        exact loop_done (by simp [walkRound,nextNode])
      | cons p pending =>
        obtain ⟨entry,right⟩ := p
        have hround : m.walkRound visit (⟨m.changes,(entry,right) :: pending⟩,seen) =
            .ok (.next (⟨m.changes,descend right pending⟩,visit seen entry)) := by
          simp [walkRound,nextNode]
        rw [loop_next hround,ih]
        · rw [descend_ahead]
          rfl
        · rw [descend_ahead]
          simp only [ahead,List.flatMap_cons,List.length_append,List.length_cons] at *
          omega
  have hstart := descend_ahead m.root ([] : List ((K × V) × Tree K V))
  rw [show ahead ([] : List ((K × V) × Tree K V)) = [] from rfl,List.append_nil] at hstart
  rw [walked,nodeWalk,hwalk]
  · rw [hstart]
  · rw [hstart]
    exact length_lt_rounds m.root

end SortedMap
end Ens.Collections
