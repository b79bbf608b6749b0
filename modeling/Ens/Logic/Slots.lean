import Mathlib.Data.List.GetD
import Mathlib.Data.Nat.Notation

/-! # Loops over consecutive slots

A loop that writes consecutive slots of an array leaves what it wrote between what was there. It may read the slots that it has not
written yet.
-/
namespace Ens.Slots
variable {A : Type*}

theorem foldl_set (f : ℕ → A) (l : List A) (a n : ℕ) (h : a + n ≤ l.length) :
    (List.range n).foldl (fun l i => l.set (a + i) (f i)) l = l.take a ++ (List.range n).map f ++ l.drop (a + n) := by
  induction n with
  | zero => simp
  | succ n ih =>
    have hlt : a + n < l.length := by omega
    have hlen : (l.take a ++ (List.range n).map f).length = a + n := by
      rw [List.length_append,List.length_take,List.length_map,List.length_range]
      omega
    rw [List.range_succ,List.foldl_append,ih (by omega),List.foldl_cons,List.foldl_nil,List.set_append_right _ _ (Nat.le_of_eq hlen),hlen,
      Nat.sub_self,List.drop_eq_getElem_cons hlt,List.set_cons_zero,List.map_append,Nat.add_assoc]
    simp

theorem map_getD_range {l : List A} {n : ℕ} (d : A) (hn : n ≤ l.length) : (List.range n).map (fun i => l.getD i d) = l.take n := by
  induction n with
  | zero => rfl
  | succ n ih =>
    rw [List.range_succ,List.map_append,ih (by omega),List.take_succ_eq_append_getElem hn,List.map_singleton,List.getD_eq_getElem _ _ hn]

theorem foldl_write (d : A) (data l : List A) (a : ℕ) (h : a + data.length ≤ l.length) :
    (List.range data.length).foldl (fun l i => l.set (a + i) (data.getD i d)) l = l.take a ++ data ++ l.drop (a + data.length) := by
  rw [foldl_set _ _ _ _ h,map_getD_range d (Nat.le_refl _),List.take_length]

theorem foldl_move (d : A) (l : List A) (a n : ℕ) (h : a + n ≤ l.length) (ha : 0 < a) :
    (List.range n).foldl (fun l i => l.set i (l.getD (a + i) d)) l = (l.drop a).take n ++ l.drop n := by
  induction n with
  | zero => simp
  | succ n ih =>
    have hlen : ((l.drop a).take n).length = n := by
      rw [List.length_take,List.length_drop]
      omega
    have hlt : n < (l.drop a).length := by
      rw [List.length_drop]
      omega
    have hread : ((l.drop a).take n ++ l.drop n).getD (a + n) d = (l.drop a)[n] := by
      rw [List.getD_append_right _ _ _ _ (by omega),hlen,Nat.add_sub_cancel,List.getD_eq_getElem?_getD,List.getElem?_drop,
        Nat.add_comm n a,← List.getElem?_drop,List.getElem?_eq_getElem hlt,Option.getD_some]
    rw [List.range_succ,List.foldl_append,ih (by omega),List.foldl_cons,List.foldl_nil,hread,List.set_append_right _ _ (Nat.le_of_eq hlen),
      hlen,Nat.sub_self,List.drop_eq_getElem_cons (show n < l.length by omega),List.set_cons_zero,List.take_succ_eq_append_getElem hlt,
      List.append_assoc]
    rfl

end Ens.Slots
