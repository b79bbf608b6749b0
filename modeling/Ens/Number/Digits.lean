import Ens.Logic.Loop
import Ens.Text.Text
import Mathlib.Algebra.Group.Nat.Defs
import Mathlib.Data.Int.Notation
import Mathlib.Data.List.DropRight

/-! # The digit buffer

A decimal number held as its digits and a decimal exponent, as `0.d[0]d[1]... * 10 ^ point`, in a
buffer that drops digits off the end when it is full. It is scaled by powers of two until its
integer part is the mantissa of a double.
-/
namespace Ens.Number
open Loop

namespace Bounds

def capacity : ℕ := 800

def lead : ℕ := 20

def exponentLimit : ℕ := 400

def shiftBits : ℕ := 50

def stridePoint : ℤ := 17

def smallestNormal : ℤ := -1021
def smallestSubnormal : ℤ := -1074
def largest : ℤ := 1024
def mantissaBits : ℕ := 53
def exactMantissa : ℕ := 9007199254740992
def exactPowerOfTen : ℕ := 22

end Bounds

/-- The digits in the buffer and the decimal exponent. `truncated` records that digits other than
zeros were dropped off the end. -/
structure Digits where
  held : List ℕ := []
  point : ℤ := 0
  truncated : Bool := false
  deriving DecidableEq, Repr

namespace Digits

def count (d : Digits) : ℕ := d.held.length

def digit (d : Digits) (index : ℤ) : ℕ := if index < 0 then 0 else d.held.getD index.toNat 0

def append (d : Digits) (digit : ℕ) : Digits :=
  if Bounds.capacity ≤ d.count then (if digit ≠ 0 then { d with truncated := true } else d)
  else { d with held := d.held ++ [digit] }

def dropLast (d : Digits) (howMany : ℕ) : Digits :=
  let keep := d.count - howMany
  { d with held := d.held.take keep, truncated := d.truncated || (d.held.drop keep).any fun x => decide (x ≠ 0) }

def normalize (d : Digits) : Digits :=
  let lead := (d.held.takeWhile fun x => decide (x = 0)).length
  let held := (d.held.dropWhile fun x => decide (x = 0)).rdropWhile fun x => decide (x = 0)
  if held = [] then ⟨[],0,false⟩ else ⟨held,d.point - lead,d.truncated⟩

/-- Digits times a power of two, from the last to the first: the carry in front of them, and the
digits. -/
def carried (bits : ℕ) : List ℕ → ℕ × List ℕ
  | [] => (0,[])
  | digit :: rest =>
    let (carry,out) := carried bits rest
    let scaled := (digit <<< bits) + carry
    (scaled / 10,scaled % 10 :: out)

def shiftLeft (d : Digits) (bits : ℕ) : Digits :=
  let d := if Bounds.capacity < d.count + Bounds.lead then d.dropLast (d.count + Bounds.lead - Bounds.capacity) else d
  normalize { d with held := (carried bits (List.replicate Bounds.lead 0 ++ d.held)).2, point := d.point + Bounds.lead }

/-- A long division on its way: the remainder, the digits written, the zeros in front that were
not, and whether digits were dropped. -/
structure Division where
  remainder : ℕ := 0
  written : List ℕ := []
  dropped : ℕ := 0
  truncated : Bool

def Division.digit (bits : ℕ) (s : Division) (digit : ℕ) : Division :=
  let value := s.remainder * 10 + digit
  let s := { s with remainder := value % 2 ^ bits }
  let quotient := value >>> bits
  if quotient = 0 ∧ s.written = [] then { s with dropped := s.dropped + 1 }
  else if s.written.length < Bounds.capacity then { s with written := s.written ++ [quotient] }
  else if quotient ≠ 0 then { s with truncated := true }
  else s

def Division.tail (bits : ℕ) (s : Division) : Except Stop (Flow Division Division) :=
  if s.remainder = 0 then .ok (.done s)
  else
    let value := s.remainder * 10
    let s := { s with remainder := value % 2 ^ bits }
    let quotient := value >>> bits
    if quotient = 0 ∧ s.written = [] then .ok (.next { s with dropped := s.dropped + 1 })
    else if Bounds.capacity ≤ s.written.length then
      .ok (.done (if quotient ≠ 0 ∨ s.remainder ≠ 0 then { s with truncated := true } else s))
    else .ok (.next { s with written := s.written ++ [quotient] })

/-- Divides by a power of two. Each round past the last digit takes a factor of two out of what
the remainder is short of. -/
def shiftRight (d : Digits) (bits : ℕ) : Except Stop Digits := do
  let s := d.held.foldl (Division.digit bits) { truncated := d.truncated }
  let s ← loop .endless (Division.tail bits) (bits + 1) s
  .ok (normalize ⟨s.written,d.point - s.dropped,s.truncated⟩)

def isZero (d : Digits) : Bool := decide (d.count = 0)

def atLeastOne (d : Digits) : Bool := decide (0 < d.count) && decide (0 < d.point)

def belowHalf (d : Digits) : Bool :=
  if d.count = 0 then true
  else if 0 < d.point then false
  else if d.point < 0 then true
  else decide (d.digit 0 < 5)

/-- Whether the digits past the point carry the value more than halfway to the next integer, or
halfway with an odd integer before them. -/
def roundsUp (d : Digits) : Bool :=
  if d.point < 0 then false
  else if 5 < d.digit d.point then true
  else if d.digit d.point < 5 then false
  else if (d.held.drop (d.point.toNat + 1)).any fun x => decide (x ≠ 0) then true
  else if d.truncated then true
  else if d.point ≤ 0 then false
  else decide (d.digit (d.point - 1) % 2 = 1)

def roundedInteger (d : Digits) : ℕ :=
  let whole := (List.range d.point.toNat).foldl (fun (whole i : ℕ) => whole * 10 + d.digit i) 0
  if d.roundsUp then whole + 1 else whole

end Digits
end Ens.Number
