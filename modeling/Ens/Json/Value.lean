import Ens.Text.Text

/-! # JSON values

A value is null, a boolean, a number kept as its text, a string, an array or an object. An
object keeps its members in insertion order, and setting a key that is already there replaces
its value and keeps its place.
-/
namespace Ens

inductive Json
  | null
  | bool (value : Bool)
  | number (text : Text)
  | string (value : Text)
  | array (elements : List Json)
  | object (members : List (Text × Json))

namespace Json

structure JsonError where
  message : List ℕ
  offset : ℕ
  line : ℕ
  column : ℕ
  deriving DecidableEq, Repr

abbrev Members := List (Text × Json)

namespace Members

def contains (members : Members) (key : Text) : Bool := members.any fun m => decide (m.1 = key)

def set (members : Members) (key : Text) (value : Json) : Members :=
  if members.contains key then members.map fun m => if m.1 = key then (key,value) else m
  else members ++ [(key,value)]

def ofList (members : List (Text × Json)) : Members := members.foldl (fun o m => set o m.1 m.2) []

theorem ofList_concat (members : List (Text × Json)) (m : Text × Json) :
    ofList (members ++ [m]) = set (ofList members) m.1 m.2 := by
  rw [ofList,List.foldl_append]
  rfl

end Members

inductive Halt
  | throws (error : JsonError)
  | stop (stop : Stop)
  deriving DecidableEq, Repr

def attempt {A : Type} : Except Stop A → Except Halt A
  | .ok a => .ok a
  | .error s => .error (.stop s)

def refuse {A : Type} : Except Stop JsonError → Except Halt A
  | .ok e => .error (.throws e)
  | .error s => .error (.stop s)

@[simp] theorem attempt_ok {A : Type} (a : A) : attempt (.ok a) = .ok a := rfl

@[simp] theorem refuse_ok {A : Type} (e : JsonError) : (refuse (.ok e) : Except Halt A) = .error (.throws e) := rfl

end Json
end Ens

/-! ## Writing JSON

A value is written to the end of a text, on one line or with a line for each item.
-/
namespace Ens.Json

def ascii (s : String) (h : ∀ b ∈ utf8 s, b < 0x80 := by decide) : Text := ⟨utf8 s,Utf8.valid_ascii h⟩

def hexDigit (value : ℕ) : Except Stop Text := (ascii "0123456789abcdef").substring value (value + 1)

def escapeOf (value : ℕ) : Except Stop (Option Text) :=
  if value = '"'.toNat then .ok (some (ascii "\\\""))
  else if value = '\\'.toNat then .ok (some (ascii "\\\\"))
  else if value = 8 then .ok (some (ascii "\\b"))
  else if value = '\t'.toNat then .ok (some (ascii "\\t"))
  else if value = '\n'.toNat then .ok (some (ascii "\\n"))
  else if value = 12 then .ok (some (ascii "\\f"))
  else if value = '\r'.toNat then .ok (some (ascii "\\r"))
  else if value < 0x20 then do
    let high ← hexDigit (value / 16)
    let low ← hexDigit (value % 16)
    .ok (some (((ascii "\\u00").append high).append low))
  else .ok none

/-- One byte of a string: what was written before it, and where the run of bytes that are
written as they are began. -/
def quoteByte (text : Text) : Text × ℕ → ℕ → Except Stop (Text × ℕ)
  | (out,runStart),i => do
    let current ← text.byteAt i
    let escaped ← escapeOf current
    match escaped with
    | none => .ok (out,runStart)
    | some escaped => do
      let run ← text.substring runStart i
      .ok ((out.append run).append escaped,i + 1)

def quote (out text : Text) : Except Stop Text := do
  let (out,runStart) ← (List.range text.length).foldlM (quoteByte text) (out.append (ascii "\""),0)
  let run ← text.substringFrom runStart
  .ok ((out.append run).append (ascii "\""))

def breakLine (out : Text) (indent : Option Text) (depth : ℕ) : Text :=
  match indent with
  | none => out
  | some indent => (List.range depth).foldl (fun out _ => out.append indent) (out.append (ascii "\n"))

/-- What goes before an item: a comma after the previous one, then a line break with indentation
or, on one line, a space. -/
def separate (out : Text) (first : Bool) (indent : Option Text) (depth : ℕ) : Text :=
  let out := if first then out else out.append (ascii ",")
  match indent with
  | none => if first then out else out.append (ascii " ")
  | some _ => breakLine out indent depth

mutual

def write (indent : Option Text) (out : Text) (depth : ℕ) : Json → Except Stop Text
  | .null => .ok (out.append (ascii "null"))
  | .bool value => .ok (out.append (if value then ascii "true" else ascii "false"))
  | .number text => .ok (out.append text)
  | .string value => quote out value
  | .array elements => do
    let (out,first) ← writeElements indent (out.append (ascii "[")) true depth elements
    let out := if first then out else breakLine out indent depth
    .ok (out.append (ascii "]"))
  | .object members => do
    let (out,first) ← writeMembers indent (out.append (ascii "\x7b")) true depth members
    let out := if first then out else breakLine out indent depth
    .ok (out.append (ascii "\x7d"))

def writeElements (indent : Option Text) (out : Text) (first : Bool) (depth : ℕ) :
    List Json → Except Stop (Text × Bool)
  | [] => .ok (out,first)
  | element :: rest => do
    let out ← write indent (separate out first indent (depth + 1)) (depth + 1) element
    writeElements indent out false depth rest

def writeMembers (indent : Option Text) (out : Text) (first : Bool) (depth : ℕ) :
    List (Text × Json) → Except Stop (Text × Bool)
  | [] => .ok (out,first)
  | (key,value) :: rest => do
    let out ← quote (separate out first indent (depth + 1)) key
    let out ← write indent (out.append (ascii ": ")) (depth + 1) value
    writeMembers indent out false depth rest

end

def compact (value : Json) : Except Stop Text := write none .empty 0 value

def indented (value : Json) (indent : Text) : Except Stop Text := write (some indent) .empty 0 value

end Ens.Json
