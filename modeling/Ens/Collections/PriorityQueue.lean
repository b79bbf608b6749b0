import Ens.Collections.ListStore

/-! # A priority queue over a store

The first slots of the store hold a binary heap: the value at an index sorts no later than those at twice the index and one or two more.
-/
namespace Ens.Collections.QueueStore
open Loop ListStore
variable {T : Type}

/-- Why an operation gives no result: the source panics, or its store stops it. -/
inductive Stop
  | popEmpty
  | peekEmpty
  | store (stop : ListStore.Stop)
deriving DecidableEq

instance : MonadLift (Except ListStore.Stop) (Except Stop) := ⟨Except.mapError .store⟩

/-- The order is negative when its first argument sorts first, zero when neither does, positive when the second does. -/
structure PriorityQueue (T : Type) where
  items : RawArray T
  count : ℕ
  order : T → T → ℤ

namespace PriorityQueue

def new (order : T → T → ℤ) : PriorityQueue T := ⟨RawArray.allocate 4,0,order⟩

def withCapacity (order : T → T → ℤ) (capacity : ℤ) : PriorityQueue T :=
  ⟨RawArray.allocate (if capacity < 1 then 1 else capacity),0,order⟩

def length (q : PriorityQueue T) : ℕ := q.count

def isEmpty (q : PriorityQueue T) : Bool := q.count = 0

def contains [BEq T] (q : PriorityQueue T) (value : T) : Except Stop Bool :=
  (List.range q.count).foldlM (fun found index => do
    if found then .ok true else .ok ((← q.items.read index) == value)) false

def reserve (fuel : ℕ) (q : PriorityQueue T) (capacity : ℤ) : Except Stop (PriorityQueue T) :=
  if capacity ≤ q.items.length then .ok q
  else do
    let size ← EnsList.doubled fuel capacity q.items.length
    let grown ← EnsList.copied q.items q.count (RawArray.allocate size)
    .ok { q with items := grown }

def siftUpStep (order : T → T → ℤ) (value : T) : RawArray T × ℕ → Except ListStore.Stop (Flow (RawArray T × ℕ) (RawArray T × ℕ))
  | (items,hole) =>
    if 0 < hole then do
      let parent := (hole - 1) / 2
      let above ← items.read parent
      if 0 ≤ order value above then .ok (.done (items,hole)) else .ok (.next (← items.write hole above,parent))
    else .ok (.done (items,hole))

-- The hole moves to its parent in every round, so that there are at most as many rounds as the index says, and one to stop in.
def siftedUp (order : T → T → ℤ) (items : RawArray T) (index : ℕ) : Except ListStore.Stop (RawArray T) := do
  let value ← items.read index
  let (items,hole) ← loop .endless (siftUpStep order value) (index + 1) (items,index)
  items.write hole value

def siftUp (q : PriorityQueue T) (index : ℕ) : Except Stop (PriorityQueue T) := do
  .ok { q with items := ← siftedUp q.order q.items index }

/-- The child of the hole that is compared with the value: the right one where there is one that sorts before the left one. -/
def smallerChild (order : T → T → ℤ) (count : ℕ) (items : RawArray T) (child : ℕ) : Except ListStore.Stop ℕ :=
  let right := child + 1
  if right < count then do
    if order (← items.read right) (← items.read child) < 0 then .ok right else .ok child
  else .ok child

def siftDownStep (order : T → T → ℤ) (count : ℕ) (value : T) :
    RawArray T × ℕ → Except ListStore.Stop (Flow (RawArray T × ℕ) (RawArray T × ℕ))
  | (items,hole) =>
    let child := hole * 2 + 1
    if count ≤ child then .ok (.done (items,hole))
    else do
      let child ← smallerChild order count items child
      let below ← items.read child
      if 0 ≤ order below value then .ok (.done (items,hole)) else .ok (.next (← items.write hole below,child))

-- The hole moves to a child in every round, and stays below the count.
def siftedDown (order : T → T → ℤ) (count : ℕ) (items : RawArray T) (index : ℕ) : Except ListStore.Stop (RawArray T) := do
  let value ← items.read index
  let (items,hole) ← loop .endless (siftDownStep order count value) (count + 1) (items,index)
  items.write hole value

/-- The value at an index moved down past every child that sorts before it, taking the smaller child's place each time. -/
def siftDown (q : PriorityQueue T) (index : ℕ) : Except Stop (PriorityQueue T) := do
  .ok { q with items := ← siftedDown q.order q.count q.items index }

def push (fuel : ℕ) (q : PriorityQueue T) (value : T) : Except Stop (PriorityQueue T) := do
  let q ← q.reserve fuel (q.count + 1)
  let items ← q.items.write q.count value
  siftUp { q with items := items, count := q.count + 1 } q.count

def pop (q : PriorityQueue T) : Except Stop (T × PriorityQueue T) :=
  if q.count = 0 then .error .popEmpty
  else do
    let smallest ← q.items.read 0
    let count := q.count - 1
    let last ← q.items.read count
    let items ← q.items.clear count
    if 0 < count then do .ok (smallest,← siftDown { q with items := ← items.write 0 last, count := count } 0)
    else .ok (smallest,{ q with items := items, count := count })

def peek (q : PriorityQueue T) : Except Stop T := if q.count = 0 then .error .peekEmpty else q.items.read 0

def clear (q : PriorityQueue T) : Except Stop (PriorityQueue T) := do
  .ok { q with items := ← (List.range q.count).foldlM (fun items index => items.clear index) q.items, count := 0 }

def copy (q : PriorityQueue T) : Except Stop (PriorityQueue T) := do
  let copied : PriorityQueue T := withCapacity q.order q.count
  .ok { copied with items := ← EnsList.copied q.items q.count copied.items, count := q.count }

/-- The next value of an iterator that stands at a position. -/
def next (q : PriorityQueue T) (position : ℕ) : Except Stop (Option (T × ℕ)) :=
  if q.count ≤ position then .ok none else do .ok (some (← q.items.read position,position + 1))

def walk (fuel : ℕ) (q : PriorityQueue T) : Except Stop (List T) :=
  loop (.store .endless) (fun (seen,position) => do
    match ← q.next position with
    | none => .ok (.done seen)
    | some (value,position) => .ok (.next (seen ++ [value],position))) fuel ([],0)

end PriorityQueue

end Ens.Collections.QueueStore
