import Ens.Number.Digits

/-! # Reading a double out of text

A text that spells a number is read to a mantissa and a power of two, or where both are small to
a mantissa and a power of ten that one multiplication or division of doubles scales it by.
-/
namespace Ens.Number
open Loop

def isDigit (value : ℕ) : Bool := decide ('0'.toNat ≤ value) && decide (value ≤ '9'.toNat)

def isSign (value : ℕ) : Bool := decide (value = '-'.toNat) || decide (value = '+'.toNat)

def isExponentMark (value : ℕ) : Bool := decide (value = 'e'.toNat) || decide (value = 'E'.toNat)

def digitRun (text : Text) (i : ℕ) : ℕ := ((text.bytes.drop i).takeWhile isDigit).length

def spellsDouble (text : Text) : Bool :=
  let i := if text.bytes[0]?.any isSign then 1 else 0
  let whole := digitRun text i
  if whole = 0 then false
  else
    let i := i + whole
    let fraction := digitRun text (i + 1)
    let point := decide (text.bytes[i]? = some '.'.toNat)
    if point && decide (fraction = 0) then false
    else
      let i := if point then i + 1 + fraction else i
      if text.bytes[i]?.any isExponentMark then
        let signs := if text.bytes[i + 1]?.any isSign then 1 else 0
        let exponent := digitRun text (i + 1 + signs)
        if exponent = 0 then false else decide (i + 1 + signs + exponent = text.length)
      else decide (i = text.length)

def magnitudeStart (text : Text) : ℕ := if text.bytes[0]?.any isSign then 1 else 0

/-! ### The short way -/

/-- What the short way has read: the mantissa, how many of its digits follow the point, and the
exponent with its sign. -/
structure Short where
  mantissa : ℕ := 0
  fractionDigits : ℕ := 0
  exponent : ℕ := 0
  exponentNegative : Bool := false
  seenPoint : Bool := false
  inExponent : Bool := false

def Short.next (exponentCeiling : ℕ) (s : Short) (value : ℕ) : Option Short :=
  if isDigit value then
    let digit := value - '0'.toNat
    if s.inExponent then
      if exponentCeiling < s.exponent then none else some { s with exponent := s.exponent * 10 + digit }
    else if Bounds.exactMantissa / 10 < s.mantissa
        ∨ (s.mantissa = Bounds.exactMantissa / 10 ∧ Bounds.exactMantissa % 10 < digit) then none
    else some { s with mantissa := s.mantissa * 10 + digit,
                       fractionDigits := if s.seenPoint then s.fractionDigits + 1 else s.fractionDigits }
  else if value = '.'.toNat then some { s with seenPoint := true }
  else if isExponentMark value then some { s with inExponent := true }
  else if value = '-'.toNat then
    if s.inExponent then some { s with exponentNegative := true } else none
  else if value = '_'.toNat ∨ value = '+'.toNat ∨ value = 'f'.toNat ∨ value = 'F'.toNat ∨ value = 'd'.toNat
      ∨ value = 'D'.toNat then some s
  else none

/-- The mantissa that one multiplication or division scales, and the power of ten it scales by,
which divides when it is negative. -/
def shortMagnitude (text : Text) (start : ℕ) : Option (ℕ × ℤ) := do
  let s ← (text.bytes.drop start).foldlM (Short.next (Bounds.exactPowerOfTen + text.length)) {}
  let exponent : ℤ := if s.exponentNegative then -s.exponent else s.exponent
  let scale := exponent - s.fractionDigits
  if Bounds.exactPowerOfTen < scale ∨ scale < -Bounds.exactPowerOfTen then none else some (s.mantissa,scale)

/-! ### The long way -/

structure Reading where
  digits : Digits := {}
  seenPoint : Bool := false
  inExponent : Bool := false
  exponentNegative : Bool := false
  anyDigit : Bool := false
  leadingZeros : ℕ := 0
  exponent : ℕ := 0

def Reading.significant (s : Reading) (digit : ℕ) : Reading :=
  if s.anyDigit = false ∧ digit = 0 then
    if s.seenPoint then { s with leadingZeros := s.leadingZeros + 1 } else s
  else
    let digits := s.digits.append digit
    { s with anyDigit := true,
             digits := if s.seenPoint then digits else { digits with point := digits.point + 1 } }

def Reading.next (s : Reading) (value : ℕ) : Reading :=
  if value = '_'.toNat ∨ value = 'f'.toNat ∨ value = 'F'.toNat ∨ value = 'd'.toNat ∨ value = 'D'.toNat
      ∨ value = '+'.toNat then s
  else if value = '-'.toNat then (if s.inExponent then { s with exponentNegative := true } else s)
  else if value = '.'.toNat then { s with seenPoint := true }
  else if isExponentMark value then { s with inExponent := true }
  else if isDigit value = false then s
  else
    let digit := value - '0'.toNat
    if s.inExponent then
      if s.exponent < Bounds.exponentLimit * 4 then { s with exponent := s.exponent * 10 + digit } else s
    else s.significant digit

def read (text : Text) (start : ℕ) : Digits :=
  let s := (text.bytes.drop start).foldl Reading.next {}
  let exponent : ℤ := if s.exponentNegative then -s.exponent else s.exponent
  Digits.normalize { s.digits with point := s.digits.point + exponent - s.leadingZeros }

inductive Magnitude
  | infinity
  | scaled (value : ℕ) (exponent : ℤ)
  deriving DecidableEq, Repr

def rounds : ℕ := 4000

def scaleDown (digits : Digits) (exponent : ℤ) : Except Stop (Digits × ℤ) :=
  loop .endless (fun (digits,exponent) =>
    if digits.atLeastOne then do
      let bits := if Bounds.stridePoint ≤ digits.point then Bounds.shiftBits else 1
      let digits ← digits.shiftRight bits
      .ok (.next (digits,exponent + bits))
    else .ok (.done (digits,exponent))) rounds (digits,exponent)

def scaleUp (digits : Digits) (exponent : ℤ) : Except Stop (Digits × ℤ) :=
  loop .endless (fun (digits,exponent) =>
    if digits.belowHalf then
      let bits := if digits.point ≤ -Bounds.stridePoint then Bounds.shiftBits else 1
      .ok (.next (digits.shiftLeft bits,exponent - bits))
    else .ok (.done (digits,exponent))) rounds (digits,exponent)

def mantissaUp : Digits × ℤ → Except Stop (Flow (Digits × ℤ) (Digits × ℤ))
  | (digits,remaining) =>
    if 0 < remaining then
      let bits := min remaining.toNat Bounds.shiftBits
      .ok (.next (digits.shiftLeft bits,remaining - bits))
    else .ok (.done (digits,remaining))

def mantissaDown : Digits × ℤ → Except Stop (Flow (Digits × ℤ) (Digits × ℤ))
  | (digits,remaining) =>
    if remaining < 0 then do
      let bits := min (-remaining).toNat Bounds.shiftBits
      let digits ← digits.shiftRight bits
      .ok (.next (digits,remaining + bits))
    else .ok (.done (digits,remaining))

def mantissa (digits : Digits) (width : ℤ) : Except Stop ℕ := do
  let (digits,remaining) ← loop .endless mantissaUp rounds (digits,width)
  let (digits,_) ← loop .endless mantissaDown rounds (digits,remaining)
  .ok digits.roundedInteger

/-- Scales the digits into [0.5, 1) while counting the power of two that takes them back, and
reads as many mantissa bits as the exponent leaves. -/
def magnitudeOf (digits : Digits) : Except Stop Magnitude :=
  if digits.isZero then .ok (.scaled 0 0)
  else if Bounds.exponentLimit < digits.point then .ok .infinity
  else if digits.point < -Bounds.exponentLimit then .ok (.scaled 0 0)
  else do
    let (digits,exponent) ← scaleDown digits 0
    let (digits,exponent) ← scaleUp digits exponent
    if Bounds.largest < exponent then .ok .infinity
    else if Bounds.smallestNormal ≤ exponent then do
      let value ← mantissa digits Bounds.mantissaBits
      .ok (.scaled value (exponent - Bounds.mantissaBits))
    else do
      let value ← mantissa digits (exponent - Bounds.smallestSubnormal)
      .ok (.scaled value Bounds.smallestSubnormal)

end Ens.Number
