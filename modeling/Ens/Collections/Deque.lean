import Ens.Collections.ListStore
import Ens.Collections.StoreRing

/-! # A deque over a store

The values are stored in a ring: the first one is at `head`, the rest follow it and wrap around at the end of the store.
-/
set_option linter.all false
namespace Ens.Collections.DequeStore
open Loop ListStore
variable {T : Type}

/-- Why an operation gives no result: the source panics, or its store stops it. -/
inductive Stop
  | popFrontEmpty
  | popBackEmpty
  | firstEmpty
  | lastEmpty
  | getOutside (index : ℤ) (length : ℕ)
  | store (stop : ListStore.Stop)
deriving DecidableEq

instance : MonadLift (Except ListStore.Stop) (Except Stop) := ⟨Except.mapError .store⟩

-- The count is at most the size of the store, and no process holds a store of 2^62 slots: what is added to it, or to a slot number,
-- stays a long. What `reserve` is asked for may be any long.
structure Deque (T : Type) where
  items : RawArray T
  head : ℕ
  count : ℕ

namespace Deque

def new : Deque T := ⟨RawArray.allocate 4,0,0⟩

def withCapacity (capacity : ℤ) : Deque T := ⟨RawArray.allocate (if capacity < 1 then 1 else capacity),0,0⟩

def length (d : Deque T) : ℕ := d.count

def isEmpty (d : Deque T) : Bool := d.count = 0

def slotOf (d : Deque T) (index : ℕ) : ℕ :=
  let slot := d.head + index
  if d.items.length ≤ slot then slot - d.items.length else slot

def copiedInto (d : Deque T) (into : RawArray T) : Except Stop (RawArray T) :=
  (List.range d.count).foldlM (fun grown index => do grown.write index (← d.items.read (d.slotOf index))) into

def reserve (fuel : ℕ) (d : Deque T) (capacity : ℤ) : Except Stop (Deque T) :=
  if capacity ≤ d.items.length then .ok d
  else do
    let size ← EnsList.doubled fuel capacity d.items.length
    let grown ← d.copiedInto (RawArray.allocate size)
    .ok { d with items := grown, head := 0 }

def pushFront (fuel : ℕ) (d : Deque T) (value : T) : Except Stop (Deque T) := do
  let d ← d.reserve fuel (d.count + 1)
  let head := if d.head = 0 then d.items.length - 1 else d.head - 1
  .ok ⟨← d.items.write head value,head,d.count + 1⟩

def pushBack (fuel : ℕ) (d : Deque T) (value : T) : Except Stop (Deque T) := do
  let d ← d.reserve fuel (d.count + 1)
  .ok { d with items := ← d.items.write (d.slotOf d.count) value, count := d.count + 1 }

def popFront (d : Deque T) : Except Stop (T × Deque T) :=
  if d.count = 0 then .error .popFrontEmpty
  else do
    let value ← d.items.read d.head
    .ok (value,⟨← d.items.clear d.head,d.slotOf 1,d.count - 1⟩)

def popBack (d : Deque T) : Except Stop (T × Deque T) :=
  if d.count = 0 then .error .popBackEmpty
  else do
    let count := d.count - 1
    let slot := d.slotOf count
    let value ← d.items.read slot
    .ok (value,{ d with items := ← d.items.clear slot, count := count })

def first (d : Deque T) : Except Stop T := if d.count = 0 then .error .firstEmpty else d.items.read d.head

def last (d : Deque T) : Except Stop T := if d.count = 0 then .error .lastEmpty else d.items.read (d.slotOf (d.count - 1))

def get (d : Deque T) (index : ℤ) : Except Stop T :=
  if index < 0 ∨ d.count ≤ index then .error (.getOutside index d.count) else d.items.read (d.slotOf index.toNat)

def contains [BEq T] (d : Deque T) (value : T) : Except Stop Bool :=
  (List.range d.count).foldlM (fun found index => do
    if found then .ok true else .ok ((← d.items.read (d.slotOf index)) == value)) false

def clear (d : Deque T) : Except Stop (Deque T) := do
  .ok ⟨← (List.range d.count).foldlM (fun items index => items.clear (d.slotOf index)) d.items,0,0⟩

def copy (d : Deque T) : Except Stop (Deque T) := do
  let copied : Deque T := withCapacity d.count
  .ok { copied with items := ← d.copiedInto copied.items, count := d.count }

def toArray (d : Deque T) : Except Stop (RawArray T) := d.copiedInto (RawArray.allocate d.count)

/-- The next value of an iterator that stands at a position. -/
def next (d : Deque T) (position : ℕ) : Except Stop (Option (T × ℕ)) :=
  if d.count ≤ position then .ok none
  else do .ok (some (← d.items.read (d.slotOf position),position + 1))

def walk (fuel : ℕ) (d : Deque T) : Except Stop (List T) :=
  loop (.store .endless) (fun (seen,position) => do
    match ← d.next position with
    | none => .ok (.done seen)
    | some (value,position) => .ok (.next (seen ++ [value],position))) fuel ([],0)

end Deque

end Ens.Collections.DequeStore

/-! ## One operation on a deque

Place by place from the head on, the store holds the values of a sequence, and then nothing up to the head again. Each operation keeps
this for what it does to the sequence.
-/
namespace Ens.Collections.DequeStore
open Loop ListStore
variable {T : Type} {d : Deque T} {xs : List T} {fuel i j : ℕ} {capacity : ℤ} {value : T}

@[simp] theorem lift_ok {A : Type} (a : A) : (liftM (Except.ok a : Except ListStore.Stop A) : Except Stop A) = .ok a := rfl

@[simp] theorem lift_error {A : Type} (e : ListStore.Stop) :
    (liftM (Except.error e : Except ListStore.Stop A) : Except Stop A) = .error (.store e) := rfl

structure Holds (d : Deque T) (xs : List T) : Prop where
  head : d.head < d.items.length
  count : d.count = xs.length
  room : xs.length ≤ d.items.length
  slots : RingOf d.items d.head xs

theorem slotOf_eq (d : Deque T) (i : ℕ) : d.slotOf i = Ring.place d.items.length d.head i := rfl

theorem Holds.read (h : Holds d xs) (hi : i < xs.length) : d.items.read (d.slotOf i) = .ok xs[i] := RingOf.read h.slots h.room hi

theorem Holds.put (h : Holds d xs) (hj : j < d.items.length) (slot : Option T) :
    d.items.put (d.slotOf j) slot = .ok (d.items.set (d.slotOf j) slot) := put_place h.head hj slot

theorem holds_filled {n : ℕ} (hpos : 0 < xs.length + n) : Holds ⟨filled xs n,0,xs.length⟩ xs where
  head := by rwa [length_filled]
  count := rfl
  room := by
    rw [length_filled]
    exact Nat.le_add_right _ _
  slots := ringOf_filled

theorem copiedInto_ok (h : Holds d xs) {m : ℕ} (hm : xs.length ≤ m) :
    d.copiedInto (List.replicate m none) = .ok (filled xs (m - xs.length)) := by
  obtain ⟨grown,hgrown,rfl⟩ := foldlM_range (n := xs.length)
    (f := fun (grown : RawArray T) index => (do grown.write index (← d.items.read (d.slotOf index)) : Except Stop (RawArray T)))
    (I := fun i grown => grown = filled (xs.take i) (m - i)) (b := List.replicate m none)
    (fun i hi grown hg => by
      have hwrite : RawArray.write grown i xs[i] = .ok (filled (xs.take (i + 1)) (m - (i + 1))) := by
        rw [hg,show m - i = m - (i + 1) + 1 by omega,filled_succ,RawArray.write_middle (length_map_take hi.le),
          List.take_succ_eq_append_getElem hi,filled_concat]
      exact ⟨_,by rw [h.read hi,lift_ok,ok_bind,hwrite,lift_ok],rfl⟩) (by simp [filled])
  rw [Deque.copiedInto,h.count,hgrown,List.take_length]

/-- Room is made without a change to the values, or doubling the store overflows and never ends. -/
theorem reserve_cases (h : Holds d xs) (fuel : ℕ) (capacity : ℤ) :
    (∃ d', d.reserve fuel capacity = .ok d' ∧ Holds d' xs ∧ capacity ≤ d'.items.length) ∨
    d.reserve fuel capacity = .error (.store .endless) ∧ (64 ≤ fuel → ¬Fits d.items.length capacity) := by
  rw [Deque.reserve]
  split_ifs with hc
  · exact .inl ⟨d,rfl,h,hc⟩
  · have hlt : (d.items.length : ℤ) < capacity := not_le.mp hc
    rcases doubled_cases fuel capacity d.items.length with ⟨size,hsize,hcap⟩ | hend
    · left
      have hroom := h.room
      obtain ⟨size,rfl⟩ := Int.eq_ofNat_of_zero_le (show 0 ≤ size by omega)
      rw [hsize,lift_ok,ok_bind,RawArray.allocate,Int.toNat_natCast,copiedInto_ok h (by omega),ok_bind]
      refine ⟨_,rfl,?_,?_⟩
      · rw [h.count]
        exact holds_filled (by omega)
      · rw [length_filled]
        omega
    · right
      refine ⟨by rw [hend]; rfl,fun hfuel hfit => ?_⟩
      have hbound := hfit 0 (by simpa using hlt)
      have hhead := h.head
      obtain ⟨j,hdoubled,-⟩ := doubled_ok (by omega) (by omega) hfit hfuel
      cases hend.symm.trans hdoubled

/-! ### The ends -/

theorem pushBack_cases (h : Holds d xs) (fuel : ℕ) (value : T) :
    (∃ d', d.pushBack fuel value = .ok d' ∧ Holds d' (xs ++ [value])) ∨
    d.pushBack fuel value = .error (.store .endless) ∧ (64 ≤ fuel → ¬Fits d.items.length (d.count + 1)) := by
  rw [Deque.pushBack]
  rcases reserve_cases h fuel (d.count + 1) with ⟨d',hreserve,hholds,hcap⟩ | ⟨hend,hfit⟩
  · left
    have hsame : d.count = d'.count := h.count.trans hholds.count.symm
    have hlt : d'.count < d'.items.length := by omega
    rw [hreserve,ok_bind,RawArray.write,hholds.put hlt,lift_ok,ok_bind]
    refine ⟨_,rfl,⟨?_,?_,?_,?_⟩⟩
    · rw [List.length_set]
      exact hholds.head
    · rw [List.length_append,hholds.count]
      rfl
    · rw [List.length_append,List.length_set,← hholds.count]
      exact hlt
    · rw [hholds.count] at hlt ⊢
      exact RingOf.written hholds.slots hholds.head hlt value
  · exact .inr ⟨by rw [hend]; rfl,hfit⟩

theorem pushFront_cases (h : Holds d xs) (fuel : ℕ) (value : T) :
    (∃ d', d.pushFront fuel value = .ok d' ∧ Holds d' (value :: xs)) ∨
    d.pushFront fuel value = .error (.store .endless) ∧ (64 ≤ fuel → ¬Fits d.items.length (d.count + 1)) := by
  rw [Deque.pushFront]
  rcases reserve_cases h fuel (d.count + 1) with ⟨d',hreserve,hholds,hcap⟩ | ⟨hend,hfit⟩
  · left
    have hhead := hholds.head
    have hsame : d.count = d'.count := h.count.trans hholds.count.symm
    have hlt : d'.count < d'.items.length := by omega
    -- the slot before the head is the last place of the ring
    have hback : (if d'.head = 0 then d'.items.length - 1 else d'.head - 1) = d'.slotOf (d'.items.length - 1) := by
      rw [slotOf_eq,Ring.place]
      split_ifs <;> omega
    rw [hreserve,ok_bind]
    dsimp only
    rw [hback,RawArray.write,hholds.put (by omega),lift_ok,ok_bind]
    have hplace : Ring.place (d'.items.set (d'.slotOf (d'.items.length - 1)) (some value)).length d'.head
        ((d'.items.set (d'.slotOf (d'.items.length - 1)) (some value)).length - 1) = d'.slotOf (d'.items.length - 1) := by
      rw [List.length_set,slotOf_eq]
    refine ⟨_,rfl,⟨?_,?_,?_,?_⟩⟩
    · rw [List.length_set]
      exact Ring.place_lt hhead (Nat.sub_le _ _)
    · rw [List.length_cons,← hholds.count]
    · rw [List.length_cons,List.length_set,← hholds.count]
      exact hlt
    · have hset := (hholds.slots.set hhead (show d'.items.length - 1 < d'.items.length by omega) (some value)).back
        (by rwa [List.length_set])
      rw [← slotOf_eq,hplace] at hset
      refine hset.congr fun i hi => ?_
      rw [List.length_set] at hi ⊢
      cases i with
      | zero => simp
      | succ i =>
        rw [if_neg (Nat.succ_ne_zero i),if_neg (by omega)]
        rfl
  · exact .inr ⟨by rw [hend]; rfl,hfit⟩

theorem popFront_ok (h : Holds d (value :: xs)) : ∃ d', d.popFront = .ok (value,d') ∧ Holds d' xs := by
  have hhead := h.head
  have hroom := h.room
  rw [List.length_cons] at hroom
  have hcount : d.count = xs.length + 1 := h.count
  have hread := RingOf.read_head h.slots hhead hroom
  rw [Deque.popFront,if_neg (by omega),hread,lift_ok,ok_bind,RawArray.clear,RawArray.put,if_pos hhead,lift_ok,ok_bind]
  refine ⟨_,rfl,⟨?_,?_,?_,?_⟩⟩
  · rw [List.length_set]
    exact Ring.place_lt hhead (by omega)
  · dsimp only
    omega
  · rw [List.length_set]
    omega
  · exact RingOf.dropped h.slots hhead hroom

theorem popBack_ok (h : Holds d (xs ++ [value])) : ∃ d', d.popBack = .ok (value,d') ∧ Holds d' xs := by
  have hhead := h.head
  have hroom := h.room
  rw [List.length_append,List.length_singleton] at hroom
  have hcount : d.count = xs.length + 1 := by rw [h.count,List.length_append,List.length_singleton]
  have hread := h.read (i := xs.length) (by rw [List.length_append]; exact Nat.lt_succ_self _)
  rw [List.getElem_concat_length rfl] at hread
  rw [Deque.popBack,if_neg (by omega),hcount,Nat.add_sub_cancel]
  dsimp only
  rw [hread,lift_ok,ok_bind,RawArray.clear,h.put (by omega),lift_ok,ok_bind]
  refine ⟨_,rfl,⟨?_,rfl,?_,?_⟩⟩
  · rwa [List.length_set]
  · rw [List.length_set]
    omega
  · refine (h.slots.set hhead (show xs.length < d.items.length by omega) none).congr fun i _ => ?_
    rw [getElem?_one_more]
    split_ifs with hi
    · rw [List.getElem?_eq_none hi.ge]
    · rfl

/-! ### The whole deque -/

theorem clear_ok (h : Holds d xs) : ∃ d', d.clear = .ok d' ∧ Holds d' [] := by
  obtain ⟨items,hitems,hlen,hshows⟩ := foldlM_range (n := xs.length)
    (f := fun (items : RawArray T) index => (items.clear (d.slotOf index) : Except Stop (RawArray T)))
    (I := fun k items => items.length = d.items.length ∧ Ring.Shows items d.head fun i => if i < k then none else xs[i]?) (b := d.items)
    (fun k hk items ⟨hlen,hshows⟩ => by
      have hk : k < items.length := hlen ▸ hk.trans_le h.room
      have hhead : d.head < items.length := hlen ▸ h.head
      have hslot : d.slotOf k = Ring.place items.length d.head k := by rw [slotOf_eq,hlen]
      refine ⟨items.set (d.slotOf k) none,?_,by rw [List.length_set,hlen],?_⟩
      · rw [RawArray.clear,RawArray.put,if_pos (by rw [hslot]; exact Ring.place_lt hhead hk.le)]
        rfl
      · rw [hslot]
        refine (hshows.set hhead hk none).congr fun i _ => ?_
        split_ifs <;> first | rfl | omega) ⟨rfl,h.slots.congr fun i _ => (if_neg (Nat.not_lt_zero i)).symm⟩
  have hhead : d.head < items.length := hlen ▸ h.head
  have hnone : items = List.replicate items.length none := Ring.Shows.of_all (hshows.congr fun i _ => by
    split_ifs with hi
    · rfl
    · exact List.getElem?_eq_none (not_lt.mp hi)) hhead
  refine ⟨⟨items,0,0⟩,?_,?_⟩
  · rw [Deque.clear,h.count,hitems]
    rfl
  · rw [hnone]
    have hpos : 0 < ([] : List T).length + items.length := by
      rw [List.length_nil]
      omega
    exact holds_filled hpos

theorem withCapacity_holds (capacity : ℤ) : Holds (Deque.withCapacity capacity) ([] : List T) := by
  rw [Deque.withCapacity,RawArray.allocate]
  have hpos : 0 < ([] : List T).length + (if capacity < 1 then 1 else capacity).toNat := by
    rw [List.length_nil]
    split_ifs <;> omega
  exact holds_filled hpos

theorem copy_ok (h : Holds d xs) : ∃ d', d.copy = .ok d' ∧ Holds d' xs := by
  rw [Deque.copy,Deque.withCapacity,RawArray.allocate,h.count]
  dsimp only
  have hroom : xs.length ≤ (if (xs.length : ℤ) < 1 then 1 else (xs.length : ℤ)).toNat := by split_ifs <;> omega
  rw [copiedInto_ok h hroom,ok_bind]
  exact ⟨_,rfl,holds_filled (by split_ifs at hroom ⊢ <;> omega)⟩

end Ens.Collections.DequeStore
