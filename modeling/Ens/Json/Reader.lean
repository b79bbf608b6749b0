import Ens.Json.Value
import Ens.Logic.Loop

/-! # Reading JSON

The reader walks the bytes of a text by offset and cuts strings out of it for values and for the
messages of its errors.
-/
set_option linter.all false
namespace Ens.Json
open Loop

namespace Limits

/-- Each nesting level is a recursive call, so this bounds the stack. -/
def depth : ℕ := 512

end Limits

def isDigit (value : ℕ) : Bool := decide ('0'.toNat ≤ value) && decide (value ≤ '9'.toNat)

def isExponentMark (value : ℕ) : Bool := decide (value = 'e'.toNat) || decide (value = 'E'.toNat)

def isSign (value : ℕ) : Bool := decide (value = '+'.toNat) || decide (value = '-'.toNat)

def isWordByte (value : ℕ) : Bool :=
  isDigit value || (decide ('a'.toNat ≤ value) && decide (value ≤ 'z'.toNat))
    || (decide ('A'.toNat ≤ value) && decide (value ≤ 'Z'.toNat))

def isWhitespace (value : ℕ) : Bool :=
  decide (value = ' '.toNat) || decide (value = '\t'.toNat) || decide (value = '\n'.toNat)
    || decide (value = '\r'.toNat)

def hexValue (value : ℕ) : Option ℕ :=
  if isDigit value then some (value - '0'.toNat)
  else if 'a'.toNat ≤ value ∧ value ≤ 'f'.toNat then some (value - 'a'.toNat + 10)
  else if 'A'.toNat ≤ value ∧ value ≤ 'F'.toNat then some (value - 'A'.toNat + 10)
  else none

structure Position where
  line : ℕ
  column : ℕ

namespace Cursor
variable (text : Text)

def atEnd (i : ℕ) : Bool := decide (text.length ≤ i)

def sees (i : ℕ) (value : Char) : Bool := decide (text.bytes[i]? = some value.toNat)

def meets (p : ℕ → Bool) (i : ℕ) : Bool := text.bytes[i]?.any p

def skip (p : ℕ → Bool) (i : ℕ) : ℕ := i + ((text.bytes.drop i).takeWhile p).length

def skipByteOrderMark : ℕ :=
  if text.bytes[0]? = some 0xEF ∧ text.bytes[1]? = some 0xBB ∧ text.bytes[2]? = some 0xBF then 3 else 0

def skipWhitespace (i : ℕ) : ℕ := skip text isWhitespace i

def skipDigits (i : ℕ) : ℕ := skip text isDigit i

/-! ### Errors -/

/-- The line and the column in bytes of an offset, from 1. -/
def position (offset : ℕ) : Except Stop Position := do
  let (line,lineStart) ← (List.range offset).foldlM (fun (line,lineStart) i => do
    let b ← text.byteAt i
    .ok (if b = '\n'.toNat then (line + 1,i + 1) else (line,lineStart))) (1,0)
  .ok ⟨line,offset - lineStart + 1⟩

def «where» (offset : ℕ) : Except Stop (List ℕ) := do
  let position ← position text offset
  .ok (utf8 "line " ++ utf8 (toString position.line) ++ utf8 ", column " ++ utf8 (toString position.column))

def failure (message : List ℕ) (offset : ℕ) : Except Stop JsonError := do
  let position ← position text offset
  .ok ⟨message,offset,position.line,position.column⟩

def word (i : ℕ) : Except Stop Text := text.substring i (skip text isWordByte i)

def describe (i : ℕ) : Except Stop (List ℕ) := do
  let current ← text.byteAt i
  if current = '\''.toNat then .ok (utf8 "a single quote")
  else if isWordByte current then do
    let word ← word text i
    .ok (utf8 "'" ++ word.bytes ++ utf8 "'")
  else if current < 0x20 ∨ current = 0x7F then .ok (utf8 "a control character")
  else if current < 0x80 then do
    let character ← text.substring i (i + 1)
    .ok (utf8 "'" ++ character.bytes ++ utf8 "'")
  else do
    let length := if 0xF0 ≤ current then 4 else if 0xE0 ≤ current then 3 else 2
    let character ← text.substring i (i + length)
    .ok (utf8 "'" ++ character.bytes ++ utf8 "'")

/-- An error that names what stands at a place and says what was wrong with it. -/
def found (complaint : List ℕ) (i : ℕ) : Except Stop JsonError := do
  let found ← describe text i
  let place ← «where» text i
  failure text (utf8 "found " ++ found ++ utf8 " at " ++ place ++ complaint) i

def unexpectedValue (i : ℕ) : Except Stop JsonError := do
  let current ← text.byteAt i
  let found ← describe text i
  let place ← «where» text i
  let start := utf8 "found " ++ found ++ utf8 " at " ++ place ++ utf8 " where a value was expected"
  if current = '\''.toNat then
    failure text (start ++ utf8 ". JSON writes strings in double quotes, as in \"text\"") i
  else if current = '.'.toNat then failure text (start ++ utf8 ". A number starts with a digit, as in '0.5'") i
  else if current = '+'.toNat then failure text (start ++ utf8 ". A number is written without a '+' in front") i
  else do
    let word ← word text i
    if word.bytes = utf8 "NaN" ∨ word.bytes = utf8 "Infinity" then
      failure text (start ++ utf8 ". JSON has no spelling for a NaN or an infinity") i
    else
      failure text (start ++ utf8 (". A value is an object, an array, a string in double quotes, a number, "
        ++ "true, false or null")) i

def endsInside (kind : List ℕ) (start : ℕ) (closer : List ℕ) (i : ℕ) : Except Stop JsonError := do
  let place ← «where» text start
  failure text (utf8 "the text ends inside the " ++ kind ++ utf8 " that began at " ++ place
    ++ utf8 ". Close it with '" ++ closer ++ utf8 "'") i

def unclosedString (start i : ℕ) : Except Stop JsonError :=
  endsInside text (utf8 "string") start (utf8 "\"") i

def unclosed (kind : List ℕ) (start : ℕ) (closer : List ℕ) (i : ℕ) : Except Stop JsonError :=
  endsInside text kind start closer i

def trailingComma (expected : List ℕ) (i : ℕ) : Except Stop JsonError :=
  found text (utf8 " where " ++ expected
    ++ utf8 " was expected, because the ',' before it has to be followed by one. Remove the ','") i

def failureAt (before after : List ℕ) (start : ℕ) : Except Stop JsonError := do
  let place ← «where» text start
  failure text (before ++ place ++ after) start

def loneSurrogate (start : ℕ) : Except Stop JsonError := do
  let escape ← text.substring start (start + 6)
  failureAt text (utf8 "the escape '" ++ escape.bytes ++ utf8 "' at ")
    (utf8 (" is one half of a surrogate pair, which is no character on its own. Write both halves, as in "
      ++ "'\\uD83D\\uDE00', or the character itself")) start

/-! ### Literals and numbers -/

def literal (expected : List ℕ) (value : Json) (i : ℕ) : Except Halt (Json × ℕ) := do
  let word ← attempt (word text i)
  if word.bytes ≠ expected then refuse (unexpectedValue text i)
  else .ok (value,i + expected.length)

def sign (start : ℕ) : Except Halt ℕ := do
  let current ← attempt (text.byteAt start)
  if current = '-'.toNat then
    let i := start + 1
    if meets text isDigit i then .ok i
    else do
      let infinity ← if atEnd text i then .ok false
        else do
          let word ← attempt (word text i)
          .ok (decide (word.bytes = utf8 "Infinity"))
      if infinity then
        refuse (failureAt text (utf8 "found '-Infinity' at ")
          (utf8 " where a value was expected. JSON has no spelling for a NaN or an infinity") start)
      else
        refuse (failureAt text (utf8 "found '-' at ") (utf8 (" with no digit after it. A negative number is '-' "
          ++ "followed by its digits, as in '-5'")) start)
  else .ok start

def whole (start i : ℕ) : Except Halt ℕ := do
  let current ← attempt (text.byteAt i)
  if current = '0'.toNat then
    if meets text isDigit (i + 1) then
      refuse (failureAt text (utf8 "the number at ") (utf8 (" starts with '0' followed by a digit, which JSON "
        ++ "does not allow. Remove the leading zero")) start)
    else .ok (i + 1)
  else .ok (skipDigits text i)

def fraction (start i : ℕ) : Except Halt ℕ :=
  if sees text i '.' then
    if meets text isDigit (i + 1) then .ok (skipDigits text (i + 1))
    else refuse (failureAt text (utf8 "the number at ") (utf8 (" has a '.' with no digit after it. Write a "
      ++ "digit after the point, as in '1.0'")) start)
  else .ok i

def exponent (start i : ℕ) : Except Halt ℕ :=
  if meets text isExponentMark i then
    let i := if meets text isSign (i + 1) then i + 2 else i + 1
    if meets text isDigit i then .ok (skipDigits text i)
    else refuse (failureAt text (utf8 "the number at ") (utf8 (" has an 'e' with no digit after it. Write the "
      ++ "exponent's digits, as in '1e5'")) start)
  else .ok i

def number (start : ℕ) : Except Halt (Json × ℕ) := do
  let i ← sign text start
  let i ← whole text start i
  let i ← fraction text start i
  let i ← exponent text start i
  let spelling ← attempt (text.substring start i)
  .ok (.number spelling,i)

/-! ### Strings -/

def hexDigit (start : ℕ) : ℕ × ℕ → Except Halt (ℕ × ℕ)
  | (code,i) =>
    match text.bytes[i]?.bind hexValue with
    | some digit => .ok (code * 16 + digit,i + 1)
    | none => refuse (failureAt text (utf8 "the escape '\\u' at ")
        (utf8 " is not followed by four hex digits, as in '\\u00e9'") start)

def hexEscape (start i : ℕ) : Except Halt (ℕ × ℕ) :=
  (List.range 4).foldlM (fun s _ => hexDigit text start s) (0,i)

def lowSurrogate (start high second : ℕ) : Except Halt (ℕ × ℕ) :=
  if sees text second '\\' && sees text (second + 1) 'u' then do
    let (low,i) ← hexEscape text second (second + 2)
    if 0xDC00 ≤ low ∧ low ≤ 0xDFFF then .ok (0x10000 + (high - 0xD800) * 0x400 + (low - 0xDC00),i)
    else refuse (loneSurrogate text start)
  else refuse (loneSurrogate text start)

/-- The character an escape of one letter stands for, beside those that stand for themselves. -/
def escapeLetter (letter : ℕ) : Option ℕ :=
  if letter = 'b'.toNat then some 8
  else if letter = 'f'.toNat then some 12
  else if letter = 'n'.toNat then some 10
  else if letter = 'r'.toNat then some 13
  else if letter = 't'.toNat then some 9
  else none

def appendCode (out : Text) (code : ℕ) : Text :=
  if h : Utf8.Scalar code then out.append (.ofScalar code h) else out

def escape (out : Text) (stringStart start : ℕ) : Except Halt (Text × ℕ) :=
  if atEnd text (start + 1) then refuse (unclosedString text stringStart (start + 1))
  else do
    let letter ← attempt (text.byteAt (start + 1))
    let i := start + 2
    if letter = '"'.toNat ∨ letter = '\\'.toNat ∨ letter = '/'.toNat then do
      let character ← attempt (text.substring (start + 1) (start + 2))
      .ok (out.append character,i)
    else
      match escapeLetter letter with
      | some code => .ok (appendCode out code,i)
      | none =>
        if letter = 'u'.toNat then do
          let (code,i) ← hexEscape text start i
          if 0xD800 ≤ code ∧ code ≤ 0xDBFF then do
            let (code,i) ← lowSurrogate text start code i
            .ok (appendCode out code,i)
          else if 0xDC00 ≤ code ∧ code ≤ 0xDFFF then refuse (loneSurrogate text start)
          else .ok (appendCode out code,i)
        else
          refuse (do
            let escape ← text.substring start i
            failureAt text (utf8 "found '" ++ escape.bytes ++ utf8 "' at ")
              (utf8 (", which is not a JSON escape. The escapes are \\\" \\\\ \\/ \\b \\f \\n \\r \\t and \\uXXXX "
                ++ "with four hex digits")) start)

/-- One round of reading a string: what is built, where the run of bytes not yet copied began,
and the place. -/
def quotedRound (start : ℕ) : Text × ℕ × ℕ → Except Halt (Flow (Text × ℕ × ℕ) (Text × ℕ))
  | (out,runStart,i) =>
    if atEnd text i then refuse (unclosedString text start i)
    else do
      let current ← attempt (text.byteAt i)
      if current = '"'.toNat then do
        let run ← attempt (text.substring runStart i)
        .ok (.done (out.append run,i + 1))
      else if current = '\\'.toNat then do
        let run ← attempt (text.substring runStart i)
        let (out,i) ← escape text (out.append run) start i
        .ok (.next (out,i,i))
      else if current < 0x20 then
        refuse (do
          let began ← «where» text start
          let place ← «where» text i
          failure text (utf8 "the string that began at " ++ began ++ utf8 " holds a control character at "
            ++ place ++ utf8 ", which JSON writes as an escape such as '\\n' or '\\u001f'") i)
      else .ok (.next (out,runStart,i + 1))

def quoted (start : ℕ) : Except Halt (Text × ℕ) :=
  loop (.stop .endless) (quotedRound text start) (text.length + 1) (.empty,start + 1,start + 1)

/-! ### Arrays and objects

A value inside an array or an object is read one level further in, by `read`. -/

/-- What follows an item, at a place past it: the closing bracket, or a comma that another item
has to follow. The errors are made by what calls this. -/
def separator (closer : Char) (unclosed stray trailing : ℕ → Except Stop JsonError) (i : ℕ) :
    Except Halt (ℕ × Bool) :=
  let i := skipWhitespace text i
  if atEnd text i then refuse (unclosed i)
  else do
    let current ← attempt (text.byteAt i)
    if current = closer.toNat then .ok (i + 1,true)
    else if current ≠ ','.toNat then refuse (stray i)
    else
      let i := skipWhitespace text (i + 1)
      if sees text i closer then refuse (trailing i) else .ok (i,false)

variable (read : ℕ → Except Halt (Json × ℕ))

def arrayRound (start : ℕ) : List Json × ℕ → Except Halt (Flow (List Json × ℕ) (Json × ℕ))
  | (elements,i) =>
    if atEnd text i then refuse (unclosed text (utf8 "array") start (utf8 "]") i)
    else do
      let (element,i) ← read i
      let elements := elements ++ [element]
      let (i,closed) ← separator text ']' (unclosed text (utf8 "array") start (utf8 "]"))
        (found text (utf8 (" after an array element. Write ',' before the next element or ']' to end the array")))
        (trailingComma text (utf8 "a value")) i
      .ok (if closed then .done (.array elements,i) else .next (elements,i))

def array (start : ℕ) : Except Halt (Json × ℕ) :=
  let i := skipWhitespace text (start + 1)
  if sees text i ']' then .ok (.array [],i + 1)
  else loop (.stop .endless) (arrayRound text read start) (text.length + 1) ([],i)

def repeatedKey (key : Text) (earlier keyStart : ℕ) : Except Stop JsonError := do
  let first ← «where» text earlier
  let second ← «where» text keyStart
  failure text (utf8 "the key '" ++ key.bytes ++ utf8 "' appears twice in the same object, at " ++ first
    ++ utf8 " and " ++ second
    ++ utf8 ". Remove one of them, or pass allowDuplicateKeys to keep the last") keyStart

def seeKey (allowDuplicateKeys : Bool) (firstSeen : List (Text × ℕ)) (key : Text) (keyStart : ℕ) :
    Except Halt (List (Text × ℕ)) :=
  if allowDuplicateKeys then .ok firstSeen
  else
    match firstSeen.lookup key with
    | some earlier => refuse (repeatedKey text key earlier keyStart)
    | none => .ok ((key,keyStart) :: firstSeen)

def member (start i : ℕ) : Except Halt ((Text × Json) × ℕ) := do
  let current ← attempt (text.byteAt i)
  if current ≠ '"'.toNat then
    refuse (found text (utf8 " where a key was expected. A key is a string in double quotes, as in \"name\"") i)
  else do
    let (key,i) ← quoted text i
    let i := skipWhitespace text i
    if atEnd text i then refuse (unclosed text (utf8 "object") start (utf8 "\x7d") i)
    else do
      let current ← attempt (text.byteAt i)
      if current ≠ ':'.toNat then
        refuse (found text (utf8 " after the key '" ++ key.bytes ++ utf8 "'. Write ':' between a key and its value") i)
      else
        let i := skipWhitespace text (i + 1)
        if atEnd text i then refuse (unclosed text (utf8 "object") start (utf8 "\x7d") i)
        else do
          let (value,i) ← read i
          .ok ((key,value),i)

def objectRound (allowDuplicateKeys : Bool) (start : ℕ) : Members × List (Text × ℕ) × ℕ →
    Except Halt (Flow (Members × List (Text × ℕ) × ℕ) (Json × ℕ))
  | (members,firstSeen,keyStart) =>
    if atEnd text keyStart then refuse (unclosed text (utf8 "object") start (utf8 "\x7d") keyStart)
    else do
      let ((key,value),i) ← member text read start keyStart
      let firstSeen ← seeKey text allowDuplicateKeys firstSeen key keyStart
      let members := members.set key value
      let (i,closed) ← separator text '}' (unclosed text (utf8 "object") start (utf8 "\x7d"))
        (found text (utf8 " after the value of '" ++ key.bytes
          ++ utf8 "'. Write ',' before the next key or '\x7d' to end the object"))
        (trailingComma text (utf8 "a key")) i
      .ok (if closed then .done (.object members,i) else .next (members,firstSeen,i))

def object (allowDuplicateKeys : Bool) (start : ℕ) : Except Halt (Json × ℕ) :=
  let i := skipWhitespace text (start + 1)
  if sees text i '}' then .ok (.object [],i + 1)
  else loop (.stop .endless) (objectRound text read allowDuplicateKeys start) (text.length + 1) ([],[],i)

def dispatch (allowDuplicateKeys : Bool) (i : ℕ) : Except Halt (Json × ℕ) := do
  let current ← attempt (text.byteAt i)
  if current = '{'.toNat then object text read allowDuplicateKeys i
  else if current = '['.toNat then array text read i
  else if current = '"'.toNat then do
    let (content,i) ← quoted text i
    .ok (.string content,i)
  else if current = 't'.toNat then literal text (utf8 "true") (.bool true) i
  else if current = 'f'.toNat then literal text (utf8 "false") (.bool false) i
  else if current = 'n'.toNat then literal text (utf8 "null") .null i
  else if current = '-'.toNat ∨ isDigit current = true then number text i
  else refuse (unexpectedValue text i)

/-- Reads the value at a place, `depth` levels inside the outermost one, within a number of
nested calls. -/
def value (text : Text) (allowDuplicateKeys : Bool) : ℕ → ℕ → ℕ → Except Halt (Json × ℕ)
  | 0,_,_ => .error (.stop .endless)
  | calls + 1,depth,i =>
    if Limits.depth < depth then
      refuse (do
        let place ← «where» text i
        failure text (utf8 "the value at " ++ place ++ utf8 " is nested more than "
          ++ utf8 (toString Limits.depth) ++ utf8 " levels deep, which this reader does not read") i)
    else dispatch text (value text allowDuplicateKeys calls (depth + 1)) allowDuplicateKeys i

end Cursor

open Cursor in
/-- Reads exactly one value, after an optional byte order mark. The nested calls are one more
than the levels, since the value one level too deep is refused in a call of its own. -/
def parse (text : Text) (allowDuplicateKeys : Bool) : Except Halt Json :=
  let i := skipWhitespace text (skipByteOrderMark text)
  if atEnd text i then
    if text.length = 0 then refuse (failure text (utf8 "the text is empty, so it holds no JSON value") 0)
    else refuse (failure text (utf8 "the text holds only whitespace and no JSON value") 0)
  else do
    let (value,i) ← value text allowDuplicateKeys (Limits.depth + 2) 0 i
    let i := skipWhitespace text i
    if atEnd text i then .ok value
    else refuse (found text (utf8 " after the value ended. A JSON text holds exactly one value") i)

end Ens.Json
