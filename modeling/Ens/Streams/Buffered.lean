import Mathlib.Data.List.Basic
import Mathlib.Data.List.TakeWhile
import Mathlib.Data.Nat.Notation

/-! # Reading ahead into a buffer

A source gives its bytes in pieces, gives none in time, or fails. The reader holds what it took ahead of its callers, and a line that is
not all there stays in the buffer.
-/
namespace Ens.Streams
variable {E : Type}

/-- What a source answers to a call: so many bytes, none in time, or a failure. -/
inductive Answer (E : Type)
  | chunk (size : ℕ)
  | late
  | failed (e : E)

structure Source (E : Type) where
  left : List ℕ
  answers : ℕ → Answer E
  isTimed : Bool

namespace Source

def after (s : Source E) (count : ℕ) : Source E := { s with left := s.left.drop count, answers := fun i => s.answers (i + 1) }

/-- The bytes put into a buffer of this size, at least one until the stream has ended. A call that waits is never late. -/
def read (s : Source E) (size : ℕ) : Except E (List ℕ) × Source E :=
  match s.answers 0 with
  | .failed e => (.error e,s.after 0)
  | .late => (.ok (s.left.take (min size 1)),s.after (min size 1))
  | .chunk n => (.ok (s.left.take (min size (max 1 n))),s.after (min size (max 1 n)))

def readWithin (s : Source E) (size : ℕ) : Except E (Option (List ℕ)) × Source E :=
  match s.answers 0 with
  | .late => (.ok none,s.after 0)
  | _ => ((s.read size).1.map some,(s.read size).2)

end Source

/-- Why a call gives no result: the source failed, the bytes do not spell text from this offset on, or a loop had no last round. -/
inductive Stop (E : Type)
  | source (e : E)
  | encoding (offset : ℕ)
  | endless

structure Reader (E : Type) where
  source : Source E
  held : List ℕ
  start : ℕ
  stop : ℕ
  ended : Bool

abbrev Call (E A : Type) := EStateM (Stop E) (Reader E) A

namespace Reader

def new (source : Source E) (capacity : ℤ) : Reader E :=
  ⟨source,List.replicate (if capacity < 1 then 1 else capacity.toNat) 0,0,0,false⟩

/-! ### Copies -/

def heldBetween (r : Reader E) (start stop : ℕ) : List ℕ := (r.held.drop start).take (stop - start)

def written (held : List ℕ) (start : ℕ) (data : List ℕ) : List ℕ :=
  (List.range data.length).foldl (fun held i => held.set (start + i) (data.getD i 0)) held

def compacted (r : Reader E) : Reader E :=
  let kept := r.stop - r.start
  if 0 < r.start then
    { r with
      held := (List.range kept).foldl (fun held i => held.set i (held.getD (r.start + i) 0)) r.held
      start := 0
      stop := kept }
  else r

def grown (r : Reader E) (kept : ℕ) : Reader E :=
  if r.stop = r.held.length then
    { r with
      held := (List.range kept).foldl (fun grown i => grown.set i (r.held.getD i 0)) (List.replicate (r.held.length * 2) 0) }
  else r

/-! ### Filling the buffer -/

def bytesFromSource (size : ℕ) (bounded : Bool) : Call E (Option (List ℕ)) := fun r =>
  if r.ended then .ok (some []) r
  else
    let (answer,source) :=
      if bounded && r.source.isTimed then r.source.readWithin size
      else ((r.source.read size).1.map some,(r.source.read size).2)
    match answer with
    | .error e => .error (.source e) { r with source }
    | .ok none => .ok none { r with source }
    | .ok (some data) => .ok (some data) { r with source, ended := data.isEmpty }

def holdsBytes (bounded : Bool) : Call E (Option Bool) := do
  let r ← get
  if r.start < r.stop then return some true
  set { r with start := 0, stop := 0 }
  match ← bytesFromSource r.held.length bounded with
  | none => return none
  | some data =>
    modify fun r => { r with held := written r.held 0 data, stop := data.length }
    return some (decide (0 < data.length))

def fillMore (bounded : Bool) : Call E (Option ℕ) := do
  modify fun r => r.compacted.grown (r.stop - r.start)
  let r ← get
  match ← bytesFromSource (r.held.length - r.stop) bounded with
  | none => return none
  | some data =>
    modify fun r => { r with held := written r.held r.stop data, stop := r.stop + data.length }
    return some data.length

/-! ### Calls -/

def readBy (size : ℕ) (bounded : Bool) : Call E (Option (List ℕ)) := do
  if size = 0 then return some []
  let r ← get
  if r.start = r.stop ∧ r.held.length ≤ size then bytesFromSource size bounded
  else
    match ← holdsBytes bounded with
    | none => return none
    | some false => return some []
    | some true =>
      let r ← get
      let count := min (r.stop - r.start) size
      set { r with start := r.start + count }
      return some (r.heldBetween r.start (r.start + count))

def newlineIndexFrom (r : Reader E) (i : ℕ) : Option ℕ := ((r.heldBetween i r.stop).findIdx? (· = 10)).map (i + ·)

def withoutReturn (raw : List ℕ) : List ℕ := if raw.getLast? = some 13 then raw.dropLast else raw

abbrev Encoding := List ℕ → Option ℕ

def textOf (invalidAt : Encoding) (raw : List ℕ) : Call E (List ℕ) :=
  match invalidAt raw with
  | none => return raw
  | some offset => throw (.encoding offset)

def takeLine (invalidAt : Encoding) (i : ℕ) : Call E (Option (List ℕ)) := do
  let r ← get
  set { r with start := i + 1 }
  return some (← textOf invalidAt (withoutReturn (r.heldBetween r.start i)))

def lineAcrossFills (invalidAt : Encoding) (bounded : Bool) : ℕ → ℕ → Call E (Option (List ℕ))
  | 0, _ => throw .endless
  | fuel + 1, scanned => do
    let r ← get
    match r.newlineIndexFrom (r.start + scanned) with
    | some i => takeLine invalidAt i
    | none =>
      match ← fillMore bounded with
      | none => return none
      | some 0 =>
        let last ← get
        set { last with start := last.stop }
        return some (← textOf invalidAt (withoutReturn (last.heldBetween last.start last.stop)))
      | some _ => lineAcrossFills invalidAt bounded fuel (r.stop - r.start)

def lineBy (invalidAt : Encoding) (bounded : Bool) (fuel : ℕ) : Call E (Option (List ℕ)) := do
  match ← holdsBytes bounded with
  | none => return none
  | some false => return none
  | some true =>
    let r ← get
    match r.newlineIndexFrom r.start with
    | none => lineAcrossFills invalidAt bounded fuel (r.stop - r.start)
    | some i => takeLine invalidAt i

def readAll : ℕ → List ℕ → Call E (List ℕ)
  | 0, _ => throw .endless
  | fuel + 1, collected => do
    if (← holdsBytes false).getD false then
      let r ← get
      set { r with start := r.stop }
      readAll fuel (collected ++ r.heldBetween r.start r.stop)
    else return collected

def readAllText (invalidAt : Encoding) (fuel : ℕ) : Call E (List ℕ) := do
  textOf invalidAt (← readAll fuel [])

end Reader

end Ens.Streams
