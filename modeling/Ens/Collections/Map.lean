import Ens.Logic.Entries
import Ens.Logic.Probe
import Mathlib.Algebra.Group.Nat.Defs
import Mathlib.Data.Int.Notation

/-! # A hash map with open addressing

The table of a map is a row of slots probed in order from the slot its key's hash names. A removed
entry leaves its slot behind, which keeps the probes through it going until a rebuild. The test of
`removeWhere` and the `make` of `getOrInsert` may call any operation of the map before they answer.
-/
set_option linter.all false
namespace Ens.Collections.Map
open Entries Probe
variable {K V : Type} [BEq K] [Hashable K]

inductive Slot (K V : Type)
  | empty
  | live (key : K) (value : V)
  | removed
  deriving DecidableEq, Repr

def Slot.isLive : Slot K V → Bool
  | .live _ _ => true
  | _ => false

def Slot.isEmpty : Slot K V → Bool
  | .empty => true
  | _ => false

def Slot.entry : Slot K V → Option (K × V)
  | .live k v => some (k,v)
  | _ => none

structure Table (K V : Type) where
  slots : List (Slot K V)
  count : ℤ := 0
  used : ℤ := 0
  changes : ℤ := 0
  deriving DecidableEq, Repr

inductive Stop
  | memory
  | forever
  deriving DecidableEq, Repr

def slotAt (slots : List (Slot K V)) (i : ℕ) : Slot K V := slots.getD i .empty

def entries (slots : List (Slot K V)) : List (K × V) := slots.filterMap Slot.entry

def home (size : ℕ) (key : K) : ℕ := (hash key).toNat &&& (size - 1)

def following (size slot : ℕ) : ℕ := (slot + 1) &&& (size - 1)

def long (x : ℤ) : ℤ := x.bmod (2 ^ 64)

/-- The loop of `tableSizeFor`. A size that was doubled 64 times is zero and stays so. -/
def tableSizeLoop (entries : ℤ) : ℕ → ℤ → Except Stop ℤ
  | 0, _ => .error .forever
  | fuel + 1, size =>
    if long (size * 3) < long (entries * 4) then tableSizeLoop entries fuel (long (size * 2)) else .ok size

def tableSizeFor (entries atLeast : ℤ) : Except Stop ℤ := tableSizeLoop entries 65 atLeast

def allocate (room : ℕ) (size : ℤ) : Except Stop (List (Slot K V)) :=
  if 0 ≤ size ∧ size ≤ room then .ok (List.replicate size.toNat .empty) else .error .memory

def create (room : ℕ) : Except Stop (Table K V) := do
  let slots ← allocate room 16
  return { slots := slots }

def withCapacity (room : ℕ) (capacity : ℤ) : Except Stop (Table K V) := do
  let size ← tableSizeFor capacity 16
  let slots ← allocate room size
  return { slots := slots }

def findLoop (slots : List (Slot K V)) (key : K) : ℕ → ℕ → Except Stop (Option ℕ)
  | 0, _ => .error .forever
  | fuel + 1, slot =>
    match slotAt slots slot with
    | .empty => .ok none
    | .live k _ => if k == key then .ok (some slot) else findLoop slots key fuel (following slots.length slot)
    | .removed => findLoop slots key fuel (following slots.length slot)

def findSlot (slots : List (Slot K V)) (key : K) : Except Stop (Option ℕ) :=
  findLoop slots key slots.length (home slots.length key)

def valueAt (slots : List (Slot K V)) (slot : ℕ) : Option V := (slotAt slots slot).entry.map Prod.snd

def Table.get (t : Table K V) (key : K) : Except Stop (Option V) := do
  match ← findSlot t.slots key with
  | some slot => return valueAt t.slots slot
  | none => return none

def Table.contains (t : Table K V) (key : K) : Except Stop Bool := do
  return (← findSlot t.slots key).isSome

def freeSlot (slots : List (Slot K V)) (key : K) : Except Stop ℕ :=
  match seek (fun i => !(slotAt slots i).isLive) (following slots.length) slots.length (home slots.length key) with
  | some slot => .ok slot
  | none => .error .forever

def moveAll : List (Slot K V) → List (Slot K V) → Except Stop (List (Slot K V))
  | [], fresh => .ok fresh
  | .live k v :: old, fresh => do
    let target ← freeSlot fresh k
    moveAll old (fresh.set target (.live k v))
  | _ :: old, fresh => moveAll old fresh

def Table.rebuild (room : ℕ) (t : Table K V) (size : ℤ) : Except Stop (Table K V) := do
  let fresh ← allocate room size
  let slots ← moveAll t.slots fresh
  return { t with slots := slots, used := t.count }

def Table.makeRoom (room : ℕ) (t : Table K V) : Except Stop (Table K V) :=
  if (t.used + 1) * 4 > t.slots.length * 3 then do
    let size ← tableSizeFor (t.count + 1) t.slots.length
    t.rebuild room size
  else return t

def Table.place (room : ℕ) (t : Table K V) (key : K) (value : V) : Except Stop (Table K V) := do
  let t ← t.makeRoom room
  let slot ← freeSlot t.slots key
  return {
    slots := t.slots.set slot (.live key value)
    count := t.count + 1
    used := if (slotAt t.slots slot).isEmpty then t.used + 1 else t.used
    changes := t.changes + 1 }

def Table.write (t : Table K V) (slot : ℕ) (value : V) : Table K V :=
  match slotAt t.slots slot with
  | .live k _ => { t with slots := t.slots.set slot (.live k value) }
  | _ => t

def Table.set (room : ℕ) (t : Table K V) (key : K) (value : V) : Except Stop (Table K V) := do
  match ← findSlot t.slots key with
  | some slot => return t.write slot value
  | none => t.place room key value

def Table.add (room : ℕ) (t : Table K V) (key : K) (value : V) : Except Stop (Bool × Table K V) := do
  if (← findSlot t.slots key).isSome then return (false,t)
  else return (true,← t.place room key value)

def Table.removeSlot (t : Table K V) (slot : ℕ) : Table K V :=
  { t with slots := t.slots.set slot .removed, count := t.count - 1 }

def Table.touch (t : Table K V) : Table K V := { t with changes := t.changes + 1 }

def Table.remove (t : Table K V) (key : K) : Except Stop (Bool × Table K V) := do
  match ← findSlot t.slots key with
  | some slot => return (true,(t.removeSlot slot).touch)
  | none => return (false,t)

def Table.clear (t : Table K V) : Table K V :=
  if t.count = 0 then t
  else { slots := t.slots.map fun _ => .empty, count := 0, used := 0, changes := t.changes + 1 }

def Table.copy (room : ℕ) (t : Table K V) : Except Stop (Table K V) := do
  let fresh : List (Slot K V) ← allocate room t.slots.length
  return { slots := fresh.mapIdx fun i _ => slotAt t.slots i, count := t.count, used := t.used }

def scan : List (Slot K V) → ℕ → Option (ℕ × K × V)
  | [], _ => none
  | .live k v :: _, i => some (i,k,v)
  | _ :: slots, i => scan slots (i + 1)

/-! ### Walks -/

structure SlotWalk where
  changesAtStart : ℤ
  position : ℕ := 0

def SlotWalk.nextSlot (w : SlotWalk) (t : Table K V) : Option (Option ℕ × SlotWalk) :=
  if t.changes ≠ w.changesAtStart then none
  else match scan (t.slots.drop w.position) w.position with
    | some (slot,_,_) => some (some slot,{ w with position := slot + 1 })
    | none => some (none,{ w with position := max w.position t.slots.length })

def SlotWalk.rest (t : Table K V) : ℕ → SlotWalk → Option (List ℕ)
  | 0, _ => none
  | fuel + 1, w =>
    match w.nextSlot t with
    | none => none
    | some (none,_) => some []
    | some (some slot,w') => (SlotWalk.rest t fuel w').map (slot :: ·)

def Table.walk (t : Table K V) : Option (List ℕ) := SlotWalk.rest t (t.slots.length + 1) ⟨t.changes,0⟩

/-! ### Calls with callbacks -/

/-- A call that waits for its callback: `removeWhere`, whose test looks at the entry of a slot, with
how many entries it removed and how many the reference lost to it, and `getOrInsert`. -/
inductive Frame (K : Type)
  | test (slot : ℕ) (key : K) (removed : ℤ) (erased : ℤ)
  | make (key : K) (changesBefore : ℤ)
  deriving DecidableEq, Repr

inductive Result (V : Type)
  | value (v : V)
  | flag (b : Bool)
  | number (n : ℤ)
  deriving DecidableEq, Repr

/-- A map beside a reference map, the calls under way, and what the last call returned beside what
the reference map says it should. -/
structure State (K V : Type) where
  table : Table K V
  reference : List (K × V) := []
  frames : List (Frame K) := []
  returned : Option (Result V) := none
  expected : Option (Result V) := none

/-- An operation of the map, or the answer of the callback that runs. A copy is a map of its own,
and the run goes on with it. -/
inductive Action (K V : Type)
  | set (key : K) (value : V)
  | add (key : K) (value : V)
  | remove (key : K)
  | clear
  | copy
  | removeWhere
  | answer (accepts : Bool)
  | getOrInsert (key : K)
  | made (value : V)

def State.testFrom (s : State K V) (i : ℕ) (removed erased : ℤ) (frames : List (Frame K)) : State K V :=
  match scan (s.table.slots.drop i) i with
  | some (slot,key,_) =>
    { s with frames := .test slot key removed erased :: frames, returned := none, expected := none }
  | none =>
    { s with
      table := if 0 < removed then s.table.touch else s.table
      frames := frames
      returned := some (.number removed)
      expected := some (.number erased) }

def step (room : ℕ) (s : State K V) : Action K V → Option (State K V)
  | .set key value =>
    (s.table.set room key value).toOption.map fun t =>
      { s with table := t, reference := insert s.reference key value, returned := none, expected := none }
  | .add key value =>
    (s.table.add room key value).toOption.map fun (added,t) =>
      { s with
        table := t
        reference := if (lookup s.reference key).isSome then s.reference else insert s.reference key value
        returned := some (.flag added)
        expected := some (.flag (lookup s.reference key).isNone) }
  | .remove key =>
    (s.table.remove key).toOption.map fun (removed,t) =>
      { s with
        table := t
        reference := erase s.reference key
        returned := some (.flag removed)
        expected := some (.flag (lookup s.reference key).isSome) }
  | .clear => some { s with table := s.table.clear, reference := [], returned := none, expected := none }
  | .copy =>
    (s.table.copy room).toOption.map fun t => { s with table := t, frames := [], returned := none, expected := none }
  | .removeWhere => some (s.testFrom 0 0 0 s.frames)
  | .answer accepts =>
    match s.frames with
    | .test slot key removed erased :: frames =>
      if accepts then
        some (State.testFrom { s with table := s.table.removeSlot slot, reference := erase s.reference key } (slot + 1)
          (removed + 1) (erased + if (lookup s.reference key).isSome then 1 else 0) frames)
      else some (s.testFrom (slot + 1) removed erased frames)
    | _ => none
  | .getOrInsert key =>
    (findSlot s.table.slots key).toOption.map fun
      | some slot =>
        { s with
          returned := (valueAt s.table.slots slot).map .value
          expected := (lookup s.reference key).map .value }
      | none => { s with frames := .make key s.table.changes :: s.frames, returned := none, expected := none }
  | .made value =>
    match s.frames with
    | .make key changesBefore :: frames =>
      let stored := if s.table.changes = changesBefore then s.table.place room key value else s.table.set room key value
      stored.toOption.map fun t =>
        { s with
          table := t
          reference := insert s.reference key value
          frames := frames
          returned := some (.value value)
          expected := some (.value value) }
    | _ => none

end Ens.Collections.Map
