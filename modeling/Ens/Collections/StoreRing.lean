import Ens.Collections.ListSpec
import Ens.Logic.Ring

/-! # A ring over a store

Place by place from the head on, the slots hold the values of a sequence, and then nothing up to the head again.
-/
namespace Ens.Collections.ListStore
open Loop
variable {T : Type} {slots : RawArray T} {xs : List T} {head i j n : ℕ} {value : T}

/-- The slots from the head on hold these values, the rest hold nothing. -/
abbrev RingOf (slots : RawArray T) (head : ℕ) (xs : List T) : Prop := Ring.Shows slots head fun i => xs[i]?

theorem RingOf.read (h : RingOf slots head xs) (hroom : xs.length ≤ slots.length) (hi : i < xs.length) :
    slots.read (Ring.place slots.length head i) = .ok xs[i] := by
  have hslot := h i (hi.trans_le hroom)
  dsimp only at hslot
  rw [List.getElem?_eq_getElem hi] at hslot
  rw [RawArray.read,hslot]

theorem put_place (hhead : head < slots.length) (hj : j < slots.length) (slot : Option T) :
    slots.put (Ring.place slots.length head j) slot = .ok (slots.set (Ring.place slots.length head j) slot) :=
  if_pos (Ring.place_lt hhead hj.le)

theorem ringOf_filled : RingOf (filled xs n) 0 xs := by
  intro i hi
  have hplace : Ring.place (filled xs n).length 0 i = i := by
    rw [Ring.place,Nat.zero_add,if_neg (not_le.mpr hi)]
  dsimp only
  rw [hplace,filled]
  rw [length_filled] at hi
  by_cases hlt : i < xs.length
  · rw [List.getElem?_append_left (by rwa [List.length_map]),List.getElem?_map,List.getElem?_eq_getElem hlt]
    rfl
  · rw [List.getElem?_append_right (by rw [List.length_map]; omega),List.getElem?_eq_none (not_lt.mp hlt),List.length_map,
      List.getElem?_replicate,if_pos (by omega)]

theorem getElem?_one_more : (xs ++ [value])[i]? = if i = xs.length then some value else xs[i]? := by
  split_ifs with hi
  · rw [hi,List.getElem?_concat_length]
  · rcases Nat.lt_or_gt_of_ne hi with hlt | hgt
    · rw [List.getElem?_append_left hlt]
    · rw [List.getElem?_append_right hgt.le,List.getElem?_eq_none (by rw [List.length_singleton]; omega),List.getElem?_eq_none hgt.le]

theorem RingOf.written (h : RingOf slots head xs) (hhead : head < slots.length) (hroom : xs.length < slots.length) (value : T) :
    RingOf (slots.set (Ring.place slots.length head xs.length) (some value)) head (xs ++ [value]) :=
  (h.set hhead hroom (some value)).congr fun i _ => by rw [getElem?_one_more]

theorem RingOf.dropped (h : RingOf slots head (value :: xs)) (hhead : head < slots.length) (hroom : xs.length < slots.length) :
    RingOf (slots.set head none) (Ring.place slots.length head 1) xs := by
  have hset := (h.set hhead (show 0 < slots.length by omega) none).on (by rwa [List.length_set])
  rw [Ring.place_zero hhead,List.length_set] at hset
  refine hset.congr fun i _ => ?_
  by_cases hlast : i = slots.length - 1
  · rw [if_pos hlast,if_pos rfl,List.getElem?_eq_none (by omega)]
  · rw [if_neg hlast,if_neg (Nat.succ_ne_zero i),List.getElem?_cons_succ]

theorem RingOf.read_head (h : RingOf slots head (value :: xs)) (hhead : head < slots.length) (hroom : xs.length < slots.length) :
    slots.read head = .ok value := by
  have hread := RingOf.read h hroom (i := 0) (Nat.succ_pos _)
  rwa [Ring.place_zero hhead] at hread

end Ens.Collections.ListStore
