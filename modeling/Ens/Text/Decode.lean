import Ens.Logic.Loop
import Ens.Text.Text

/-! # Reading UTF-8

Three readers of bytes: one that refuses what is no text, one that writes a replacement character instead, and the walk over the characters
of a text, which needs no checking of its own.
-/
namespace Ens.Decode
open Loop Text

def entry {T : Type} (raw : List T) (i : ℕ) : Except Stop T :=
  match raw[i]? with
  | some value => .ok value
  | none => .error .abort

def put {T : Type} (built : List T) (i : ℕ) (value : T) : Except Stop (List T) :=
  if i < built.length then .ok (built.set i value) else .error .abort

/-! ### Characters -/

/-- How many bytes a character beginning with a byte spans, or 0 when none begins with it. -/
def leadWidth (lead : ℕ) : ℕ :=
  if lead < 0x80 then 1
  else if 0xC2 ≤ lead ∧ lead ≤ 0xDF then 2
  else if 0xE0 ≤ lead ∧ lead ≤ 0xEF then 3
  else if 0xF0 ≤ lead ∧ lead ≤ 0xF4 then 4
  else 0

def leadMask (width : ℕ) : ℕ :=
  match width with
  | 1 => 0x7F
  | 2 => 0x1F
  | 3 => 0x0F
  | _ => 0x07

def followsLead (lead second : ℕ) : Bool :=
  let lowest := if lead = 0xE0 then 0xA0 else if lead = 0xF0 then 0x90 else 0x80
  let highest := if lead = 0xED then 0x9F else if lead = 0xF4 then 0x8F else 0xBF
  decide (lowest ≤ second) && decide (second ≤ highest)

/-- How many bytes the character at a place spans, or 0 when the bytes there spell none. -/
def characterWidth (raw : List ℕ) (i : ℕ) : Except Stop ℕ := do
  let lead ← entry raw i
  let width := leadWidth lead
  if width = 0 ∨ raw.length < i + width then .ok 0
  else if width = 1 then .ok 1
  else if !followsLead lead (← entry raw (i + 1)) then .ok 0
  else if ← (List.range (width - 2)).allM (fun k => do .ok (insideCharacter (← entry raw (i + 2 + k)))) then .ok width
  else .ok 0

-- Each round goes on by a byte at least, here and in the loops below, so that there are no more rounds than bytes, and one to stop in.
/-- Where the bytes first stop spelling UTF-8, or -1 when all of them do. -/
def firstInvalidUtf8 (raw : List ℕ) : Except Stop ℤ :=
  loop .endless (fun i =>
    if i < raw.length then do
      let width ← characterWidth raw i
      if width = 0 then .ok (.done (i : ℤ)) else .ok (.next (i + width))
    else .ok (.done (-1 : ℤ))) (raw.length + 1) 0

def malformedWidth (raw : List ℕ) (i : ℕ) : Except Stop ℕ := do
  let lead ← entry raw i
  let width := leadWidth lead
  if width < 2 ∨ raw.length ≤ i + 1 then .ok 1
  else if !followsLead lead (← entry raw (i + 1)) then .ok 1
  else
    loop .endless (fun taken =>
      if taken < width ∧ i + taken < raw.length then do
        if insideCharacter (← entry raw (i + taken)) then .ok (.next (taken + 1)) else .ok (.done taken)
      else .ok (.done taken)) (width + 1) 2

/-! ### Whole arrays -/

structure EncodingError where
  message : String
  offset : ℤ
deriving DecidableEq

def fromBytes (data : List ℕ) : Except Stop (Except EncodingError (List ℕ)) := do
  let offset ← firstInvalidUtf8 data
  if 0 ≤ offset then
    .ok (.error ⟨s!"the bytes are not valid UTF-8, the way Ens stores text as bytes: the byte at offset {offset} does not start a " ++
      "character. Convert them with fromBytesLossy() to replace every byte that is not part of a character",offset⟩)
  else .ok (.ok data)

def lossyStep (data : List ℕ) : List ℕ × ℕ × ℕ → Except Stop (Loop.Flow (List ℕ × ℕ × ℕ) (List ℕ × ℕ))
  | (built,written,read) =>
    if read < data.length then do
      let width ← characterWidth data read
      if 0 < width then do
        let built ← (List.range width).foldlM (fun built k => do put built (written + k) (← entry data (read + k))) built
        .ok (.next (built,written + width,read + width))
      else do
        let built ← put built written 0xEF
        let built ← put built (written + 1) 0xBF
        let built ← put built (written + 2) 0xBD
        .ok (.next (built,written + 3,read + (← malformedWidth data read)))
    else .ok (.done (built,written))

def fromBytesLossy (data : List ℕ) : Except Stop (List ℕ) := do
  let offset ← firstInvalidUtf8 data
  if offset < 0 then .ok data
  else do
    let (built,written) ← loop .endless (lossyStep data) (data.length + 1) (List.replicate (data.length * 3) 0,0,0)
    if written ≤ built.length then .ok (built.take written) else .error .abort

/-! ### The walk over characters -/

def next (text : Text) (i : ℕ) : Except Stop (Option (ℕ × ℕ)) :=
  if text.length ≤ i then .ok none
  else do
    let lead ← text.byteAt i
    let width := leadWidth lead
    let scalar ← (List.range (width - 1)).foldlM (fun scalar k => do .ok (scalar * 64 + ((← text.byteAt (i + (k + 1))) &&& 0x3F)))
      (lead &&& leadMask width)
    .ok (some (scalar,i + width))

def chars (text : Text) : Except Stop (List ℕ) :=
  loop .endless (fun (seen,i) => do
    match ← next text i with
    | none => .ok (.done seen)
    | some (scalar,i) => .ok (.next (seen ++ [scalar],i))) (text.length + 1) ([],0)

end Ens.Decode
