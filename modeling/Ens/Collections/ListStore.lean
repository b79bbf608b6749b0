import Ens.Logic.Long
import Ens.Logic.Loop

/-! # A list over a store

The first slots of the store hold the values, the rest hold nothing. The store grows by doubling.
-/
namespace Ens.Collections.ListStore
open Loop
variable {T : Type}

/-- Why an operation gives no result: the source panics, an index lies outside the store, a slot nothing was written in is read, or no
round of a loop is the last. -/
inductive Stop
  | popEmpty
  | insertOutside (index : ℤ) (length : ℕ)
  | removeOutside (index : ℤ) (length : ℕ)
  | outOfBounds
  | unwritten
  | endless
deriving DecidableEq

/-! ### Slots -/

abbrev RawArray (T : Type) := List (Option T)

namespace RawArray

def allocate (size : ℤ) : RawArray T := List.replicate size.toNat none

def wrapping (cells : List T) : RawArray T := cells.map some

def read (cells : RawArray T) (index : ℕ) : Except Stop T :=
  match cells[index]? with
  | none => .error .outOfBounds
  | some none => .error .unwritten
  | some (some value) => .ok value

def put (cells : RawArray T) (index : ℕ) (slot : Option T) : Except Stop (RawArray T) :=
  if index < cells.length then .ok (cells.set index slot) else .error .outOfBounds

def write (cells : RawArray T) (index : ℕ) (value : T) : Except Stop (RawArray T) := cells.put index (some value)

def clear (cells : RawArray T) (index : ℕ) : Except Stop (RawArray T) := cells.put index none

end RawArray

structure EnsList (T : Type) where
  items : RawArray T
  count : ℕ

namespace EnsList

/-! ### Making room -/

def doubled (fuel : ℕ) (capacity size : ℤ) : Except Stop ℤ :=
  loop .endless (fun size => .ok (if size < capacity then .next (Long.wrap (size * 2)) else .done size)) fuel size

def copied (items : RawArray T) (count : ℕ) (into : RawArray T) : Except Stop (RawArray T) :=
  (List.range count).foldlM (fun grown i => do grown.write i (← items.read i)) into

def reserve (fuel : ℕ) (l : EnsList T) (capacity : ℤ) : Except Stop (EnsList T) :=
  if capacity ≤ l.items.length then .ok l
  else do
    let size ← doubled fuel capacity l.items.length
    let grown ← copied l.items l.count (RawArray.allocate size)
    .ok { l with items := grown }

/-! ### Operations -/

def push (fuel : ℕ) (l : EnsList T) (value : T) : Except Stop (EnsList T) := do
  let l ← l.reserve fuel (Long.wrap (l.count + 1))
  .ok ⟨← l.items.write l.count value,l.count + 1⟩

def pushAll (fuel : ℕ) (l : EnsList T) (values : List T) : Except Stop (EnsList T) := values.foldlM (push fuel) l

def pushAllOfItself (fuel : ℕ) (l : EnsList T) : Except Stop (EnsList T) :=
  loop .endless (fun (l,position) =>
    if l.count ≤ position then .ok (.done l)
    else do
      let l' ← l.push fuel (← l.items.read position)
      .ok (.next (l',position + 1))) fuel (l,0)

def pop (l : EnsList T) : Except Stop (T × EnsList T) :=
  if l.count = 0 then .error .popEmpty
  else do
    let value ← l.items.read (l.count - 1)
    .ok (value,⟨← l.items.clear (l.count - 1),l.count - 1⟩)

def insert (fuel : ℕ) (l : EnsList T) (index : ℤ) (value : T) : Except Stop (EnsList T) :=
  if index < 0 ∨ l.count < index then .error (.insertOutside index l.count)
  else do
    let l ← l.reserve fuel (Long.wrap (l.count + 1))
    let moved ← (List.range (l.count - index.toNat)).foldlM
      (fun items k => do items.write (l.count - k) (← items.read (l.count - k - 1))) l.items
    .ok ⟨← moved.write index.toNat value,l.count + 1⟩

def removeAt (l : EnsList T) (index : ℤ) : Except Stop (T × EnsList T) :=
  if index < 0 ∨ l.count ≤ index then .error (.removeOutside index l.count)
  else do
    let removed ← l.items.read index.toNat
    let count := l.count - 1
    let moved ← (List.range (count - index.toNat)).foldlM
      (fun items k => do items.write (index.toNat + k) (← items.read (index.toNat + k + 1))) l.items
    .ok (removed,⟨← moved.clear count,count⟩)

/-- The index of the first of so many values from here on that the test accepts, or -1. -/
def indexFrom (items : RawArray T) (test : T → Bool) : ℕ → ℕ → Except Stop ℤ
  | 0, _ => .ok (-1)
  | left + 1, i => do
    if test (← items.read i) then .ok i else indexFrom items test left (i + 1)

def indexOf [BEq T] (l : EnsList T) (value : T) : Except Stop ℤ := indexFrom l.items (· == value) l.count 0

def remove [BEq T] (l : EnsList T) (value : T) : Except Stop (Bool × EnsList T) := do
  let index ← l.indexOf value
  if index < 0 then .ok (false,l)
  else
    let removed ← l.removeAt index
    .ok (true,removed.2)

def dropFrom (l : EnsList T) (kept : ℕ) : Except Stop (EnsList T) := do
  .ok ⟨← (List.range (l.count - kept)).foldlM (fun items k => items.clear (kept + k)) l.items,kept⟩

def removeWhere (l : EnsList T) (test : T → Bool) : Except Stop (ℕ × EnsList T) := do
  let (items,kept) ← (List.range l.count).foldlM
    (fun (items,kept) i => do
      let value ← RawArray.read items i
      if test value then .ok (items,kept) else .ok (← items.write kept value,kept + 1)) (l.items,0)
  let dropped ← dropFrom ⟨items,l.count⟩ kept
  .ok (l.count - kept,dropped)

def clear (l : EnsList T) : Except Stop (EnsList T) := l.dropFrom 0

def reversedBetween (items : RawArray T) (low high : ℤ) : Except Stop (RawArray T) :=
  if low < high then do
    let value ← items.read low.toNat
    let items ← items.write low.toNat (← items.read high.toNat)
    let items ← items.write high.toNat value
    reversedBetween items (low + 1) (high - 1)
  else .ok items
termination_by (high - low).toNat

def reverse (l : EnsList T) : Except Stop (EnsList T) := do
  .ok { l with items := ← reversedBetween l.items 0 (l.count - 1) }

/-! ### Making lists -/

def new : EnsList T := ⟨RawArray.allocate 4,0⟩

def withCapacity (capacity : ℤ) : EnsList T := ⟨RawArray.allocate (if capacity < 1 then 1 else capacity),0⟩

def wrapping (values : List T) : EnsList T := ⟨RawArray.wrapping values,values.length⟩

def ofValues (fuel : ℕ) (values : List T) : Except Stop (EnsList T) :=
  values.foldlM (push fuel) (withCapacity values.length)

def copy (l : EnsList T) : Except Stop (EnsList T) := do
  let result : EnsList T := withCapacity l.count
  .ok ⟨← copied l.items l.count result.items,l.count⟩

end EnsList

end Ens.Collections.ListStore
