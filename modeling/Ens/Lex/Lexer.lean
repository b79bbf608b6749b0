import Mathlib.Data.Int.Notation
import Ens.Lex.Characters

/-! # The lexer

Each scan reads the source from the lexer's position, moves it on, and adds one piece. Reports
are kept in order with the pieces. Within a hole of an interpolated string the depth of its
braces is kept on a stack whose backing list only grows.
-/
set_option linter.all false
namespace Ens.Lex
open Loop

structure Lexer where
  position : ℕ := 0
  pieces : List RawToken := []
  diagnostics : List Diagnostic := []
  holeDepthStack : List ℤ := []
  holeDepthCount : ℕ := 0

structure LexResult where
  rawPieces : List RawToken
  significantTokens : List LexedToken
  lexDiagnostics : List Diagnostic

/-- The byte at an index, or 0 past the end. -/
def byteAt (input : Text) (index : ℕ) : ℕ := input.bytes.getD index 0

def singleCharacters : List (Char × SyntaxKind) := [
  ('(',.openParenthesis),(')',.closeParenthesis),('{',.openBrace),('}',.closeBrace),('[',.openBracket),
  (']',.closeBracket),(';',.semicolon),(',',.comma),('.',.dot),(':',.colon),('+',.plus),('-',.minus),
  ('*',.star),('/',.slash),('%',.percent),('^',.caret),('=',.equals),('!',.exclamation),('~',.tilde),
  ('?',.question),('<',.less),('>',.greater),('&',.ampersand),('|',.pipe),('@',.atSign)]

def singleCharacterKind (c : ℕ) : Option SyntaxKind :=
  (singleCharacters.find? fun row => decide (row.1.toNat = c)).map Prod.snd

/-- The operators of more than one character and the characters that begin them, in the order
they are tried. -/
def operators : List (List Char × SyntaxKind) := [
  (['>','>','>','='],.greaterGreaterGreaterEquals),(['>','>','>'],.greaterGreaterGreater),
  (['>','>','='],.greaterGreaterEquals),(['>','>'],.greaterGreater),(['>','='],.greaterEquals),
  (['>'],.greater),
  (['<','<','='],.lessLessEquals),(['<','<'],.lessLess),(['<','='],.lessEquals),(['<'],.less),
  (['.','.','.'],.ellipsis),(['.'],.dot),
  (['=','='],.equalsEquals),(['='],.equals),
  (['!','='],.notEquals),(['!'],.exclamation),
  (['-','>'],.arrow),(['-','-'],.minusMinus),(['-','='],.minusEquals),(['-'],.minus),
  (['&','&'],.ampersandAmpersand),(['&','='],.ampersandEquals),(['&'],.ampersand),
  (['|','|'],.pipePipe),(['|','='],.pipeEquals),(['|'],.pipe),
  (['+','+'],.plusPlus),(['+','='],.plusEquals),(['+'],.plus),
  (['*','='],.starEquals),(['*'],.star),
  (['/','='],.slashEquals),(['/'],.slash),
  (['%','='],.percentEquals),(['%'],.percent),
  (['^','='],.caretEquals),(['^'],.caret),
  (['?','.'],.questionDot),(['?'],.question)]

def isSpace (c : ℕ) : Bool :=
  decide (c = ' '.toNat) || decide (c = '\t'.toNat) || decide (c = 0x0C) || decide (c = 0x0B)

def isLineEnd (c : ℕ) : Bool := decide (c = '\n'.toNat) || decide (c = '\r'.toNat)

/-- How many bytes the character at an index spans when no token begins with it, or 0. -/
def refusedLength (input : Text) (index : ℕ) : ℕ :=
  match input.bytes.drop index with
  | [] => 0
  | c :: rest =>
    if isSpace c || isLineEnd c || isDigit c || isIdentifierStart c || decide (c = '"'.toNat)
        || decide (c = '\''.toNat) || (singleCharacterKind c).isSome then 0
    else 1 + ((rest.take (utf8SequenceLength c - 1)).takeWhile isContinuationByte).length

def refusedRunEnd (input : Text) (index : ℕ) : Except Stop ℕ :=
  loop .endless (fun stop =>
    if refusedLength input stop = 0 then .ok (.done stop)
    else .ok (.next (stop + refusedLength input stop))) (input.length + 1) index

namespace LineEnd

def holeOpen : ℤ := -2
def insideLiteral : ℤ := -1

end LineEnd

/-- Where a literal whose text starts at an index ends on its line: just past its closing
quote, or `insideLiteral`. -/
def literalEndOnLine (input : Text) (index quote : ℕ) : Except Stop ℤ :=
  loop .endless (fun (index : ℕ) =>
    match input.bytes[index]? with
    | none => .ok (.done LineEnd.insideLiteral)
    | some c =>
      if isLineEnd c then .ok (.done LineEnd.insideLiteral)
      else if c = quote then .ok (.done (index + 1))
      else if c = '\\'.toNat then .ok (.next (index + 2))
      else .ok (.next (index + 1))) (input.length + 1) index

/-- Where the rest of a hole that starts at an index ends on its line: just past the brace
that closes it, or how the line ends otherwise. -/
def holeEndOnLine (input : Text) (index : ℕ) : Except Stop ℤ :=
  loop .endless (fun (index,depth) =>
    match input.bytes[index]? with
    | none => .ok (.done LineEnd.holeOpen)
    | some c =>
      if isLineEnd c then .ok (.done LineEnd.holeOpen)
      else if c = '/'.toNat ∧ (byteAt input (index + 1) = '/'.toNat ∨ byteAt input (index + 1) = '*'.toNat) then
        .ok (.done LineEnd.holeOpen)
      else if c = '"'.toNat ∨ c = '\''.toNat then do
        let stop ← literalEndOnLine input (index + 1) c
        if stop < 0 then .ok (.done stop) else .ok (.next (stop.toNat,depth))
      else if c = '{'.toNat then .ok (.next (index + 1,depth + 1))
      else if c = '}'.toNat then
        if depth = 0 then .ok (.done (index + 1)) else .ok (.next (index + 1,depth - 1))
      else .ok (.next (index + 1,depth))) (input.length + 1) (index,(0 : ℕ))

namespace Lexer
variable (input : Text)

def atEnd (s : Lexer) : Bool := decide (input.length ≤ s.position)

/-- The byte at an offset from the position, or 0 past the end. -/
def peek (s : Lexer) (offset : ℕ) : ℕ := byteAt input (s.position + offset)

def advance (s : Lexer) : Lexer :=
  if s.position < input.length then { s with position := s.position + 1 } else s

def advanceWhile (p : ℕ → Bool) (s : Lexer) : Lexer :=
  { s with position := s.position + ((input.bytes.drop s.position).takeWhile p).length }

def advanceTo (stop : ℕ) (s : Lexer) : Except Stop Lexer :=
  if stop ≤ input.length then .ok { s with position := max s.position stop } else .error .endless

def emit (s : Lexer) (pieceKind : SyntaxKind) (startPosition : ℕ) : Lexer :=
  { s with pieces := s.pieces ++ [⟨pieceKind,startPosition,s.position - startPosition⟩] }

def report (s : Lexer) (message : List ℕ) (startPosition endPosition : ℕ) : Lexer :=
  { s with diagnostics := s.diagnostics ++ [⟨message,startPosition,endPosition - startPosition⟩] }

def holeStackEmpty (s : Lexer) : Bool := decide (s.holeDepthCount = 0)

def holeTop (s : Lexer) : Except Stop ℤ :=
  if s.holeDepthCount = 0 then .error .abort
  else
    match s.holeDepthStack[s.holeDepthCount - 1]? with
    | some depth => .ok depth
    | none => .error .abort

def setHoleTop (s : Lexer) (value : ℤ) : Except Stop Lexer :=
  if 0 < s.holeDepthCount ∧ s.holeDepthCount ≤ s.holeDepthStack.length then
    .ok { s with holeDepthStack := s.holeDepthStack.set (s.holeDepthCount - 1) value }
  else .error .abort

def pushHole (s : Lexer) (value : ℤ) : Except Stop Lexer :=
  if s.holeDepthCount = s.holeDepthStack.length then
    .ok { s with holeDepthStack := s.holeDepthStack ++ [value], holeDepthCount := s.holeDepthCount + 1 }
  else if s.holeDepthCount < s.holeDepthStack.length then
    .ok { s with holeDepthStack := s.holeDepthStack.set s.holeDepthCount value,
                 holeDepthCount := s.holeDepthCount + 1 }
  else .error .abort

def popHole (s : Lexer) : Lexer := { s with holeDepthCount := s.holeDepthCount - 1 }

def reportRefused (s : Lexer) (startPosition : ℕ) : Except Stop Lexer := do
  let sequence ← input.substring startPosition s.position
  .ok (s.report (utf8 "'" ++ sequence.bytes ++ utf8 ("' cannot appear in code outside a string or a comment. "
    ++ "Remove it, or move it into a string.")) startPosition s.position)

/-! ### Trivia -/

def lexWhitespace (s : Lexer) (startPosition : ℕ) : Lexer :=
  (s.advanceWhile input isSpace).emit .whitespace startPosition

def lexNewline (s : Lexer) (startPosition : ℕ) : Lexer :=
  let c := s.peek input 0
  let s := s.advance input
  let s := if c = '\r'.toNat ∧ s.peek input 0 = '\n'.toNat then s.advance input else s
  s.emit .newline startPosition

def lexLineComment (s : Lexer) (startPosition : ℕ) : Lexer :=
  (((s.advance input).advance input).advanceWhile input fun c => !isLineEnd c).emit .lineComment startPosition

def blockCommentRest : List ℕ → ℕ × Bool
  | [] => (0,false)
  | c :: rest =>
    if c = '*'.toNat ∧ rest.head? = some '/'.toNat then (2,true)
    else ((blockCommentRest rest).1 + 1,(blockCommentRest rest).2)

def lexBlockComment (s : Lexer) (startPosition : ℕ) : Lexer :=
  let s := (s.advance input).advance input
  let (taken,closed) := blockCommentRest (input.bytes.drop s.position)
  let s := { s with position := s.position + taken }
  let s :=
    if closed then s
    else s.report (utf8 ("This comment starts with '/*' and is never closed. Write '*/' where the "
      ++ "comment ends.")) startPosition s.position
  s.emit .blockComment startPosition

/-! ### Words and numbers -/

/-- The loop of a word, where refused characters between two characters of it are reported
and kept. -/
def identifierLoop (s : Lexer) : Except Stop Lexer :=
  loop .endless (fun s =>
    if s.atEnd input then .ok (.done s)
    else if isIdentifierContinue (s.peek input 0) then .ok (.next (s.advance input))
    else do
      let runEnd ← refusedRunEnd input s.position
      if runEnd = s.position ∨ isIdentifierContinue (byteAt input runEnd) = false then .ok (.done s)
      else do
        let refusedStart := s.position
        let s ← s.advanceTo input runEnd
        let s ← s.reportRefused input refusedStart
        .ok (.next s)) (input.length + 1) s

def lexIdentifierOrKeyword (s : Lexer) (startPosition : ℕ) : Except Stop Lexer := do
  let s ← s.identifierLoop input
  let text ← input.substring startPosition s.position
  match keywordFromText text with
  | none => .ok (s.emit .identifier startPosition)
  | some keyword => .ok (s.emit keyword startPosition)

def lexRadix (isRadixDigit : ℕ → Bool) (message : List ℕ → List ℕ) (s : Lexer) (startPosition : ℕ) :
    Except Stop Lexer :=
  let s₀ := (s.advance input).advance input
  let s := s₀.advanceWhile input fun c => isRadixDigit c || decide (c = '_'.toNat)
  if s.position = s₀.position then do
    let before ← input.substring startPosition s.position
    .ok (s.report (message before.bytes) startPosition s.position)
  else .ok s

def hexadecimalMessage (written : List ℕ) : List ℕ :=
  utf8 "'" ++ written ++ utf8 ("' starts a hexadecimal number, a number written in base 16, "
    ++ "but no digit follows it. Write at least one digit from 0 to 9 or A to F after '") ++ written
    ++ utf8 "', for example '0x1F'."

def binaryMessage (written : List ℕ) : List ℕ :=
  utf8 "'" ++ written ++ utf8 ("' starts a binary number, a number written in base 2, but no "
    ++ "digit follows it. Write at least one 0 or 1 after '") ++ written ++ utf8 "', for example '0b1010'."

def isBinaryDigit (c : ℕ) : Bool := decide (c = '0'.toNat) || decide (c = '1'.toNat)

def isOctalExcess (c : ℕ) : Bool := decide (c = '8'.toNat) || decide (c = '9'.toNat)

/-- An octal number after its prefix. A capital O is refused, and so is a digit base 8 has no
room for. -/
def lexOctal (s : Lexer) (startPosition : ℕ) : Except Stop Lexer :=
  let capital := decide (s.peek input 1 = 'O'.toNat)
  let s₀ := (s.advance input).advance input
  let s := s₀.advanceWhile input fun c => isDigit c || decide (c = '_'.toNat)
  do
    let written ← input.substring startPosition s.position
    if capital then do
      let digits ← written.substringFrom 2
      .ok (s.report (utf8 "'" ++ written.bytes ++ utf8 ("' starts an octal number with a capital 'O', "
        ++ "which is hard to tell from a zero. Write a small 'o' instead, as in '0o") ++ digits.bytes
        ++ utf8 "'.") startPosition s.position)
    else if s.position = s₀.position then
      .ok (s.report (utf8 ("'0o' starts an octal number, a number written in base 8, but no digit "
        ++ "follows it. Write at least one digit from 0 to 7 after '0o', for example '0o755'."))
        startPosition s.position)
    else
      match (written.bytes.drop 2).findIdx? isOctalExcess with
      | none => .ok s
      | some i => do
        let digit ← written.substring (i + 2) (i + 3)
        .ok (s.report (utf8 "'" ++ written.bytes ++ utf8 ("' is an octal number, a number written in base 8, "
          ++ "and base 8 has no digit '") ++ digit.bytes ++ utf8 ("'. Use only the digits 0 to 7, or remove "
          ++ "'0o' to write a number in base 10.")) startPosition s.position)

def checkLeadingZero (s : Lexer) (startPosition : ℕ) : Except Stop Lexer := do
  let written ← input.substring startPosition s.position
  let c := s.peek input 0
  if written.length < 2 ∨ written.bytes.head? ≠ some '0'.toNat ∨ c = '.'.toNat ∨ c = 'e'.toNat
      ∨ c = 'E'.toNat then .ok s
  else
    let first := 1 + ((written.bytes.drop 1).takeWhile fun d => decide (d = '0'.toNat) || decide (d = '_'.toNat)).length
    do
      let significant ← if first = written.length then .ok (utf8 "0") else (written.substringFrom first).map Text.bytes
      .ok (s.report (utf8 "'" ++ written.bytes ++ utf8 ("' starts with a zero, which some languages read as an "
        ++ "octal number, a number written in base 8. Write '0o") ++ significant ++ utf8 "' for base 8, or '"
        ++ significant ++ utf8 "' for base 10.") startPosition s.position)

def lexFraction (s : Lexer) : Lexer × Bool :=
  if s.peek input 0 = '.'.toNat ∧ isDigit (s.peek input 1) then
    ((s.advance input).advanceWhile input fun c => isDigit c || decide (c = '_'.toNat),true)
  else (s,false)

def lexExponent (s : Lexer) : Lexer × Bool :=
  if s.peek input 0 = 'e'.toNat ∨ s.peek input 0 = 'E'.toNat then
    let s := s.advance input
    let s := if s.peek input 0 = '+'.toNat ∨ s.peek input 0 = '-'.toNat then s.advance input else s
    (s.advanceWhile input isDigit,true)
  else (s,false)

def lexDecimal (s : Lexer) (startPosition : ℕ) : Except Stop (Lexer × Bool) :=
  let s := s.advanceWhile input fun c => isDigit c || decide (c = '_'.toNat)
  do
    let s ← s.checkLeadingZero input startPosition
    let (s,fraction) := s.lexFraction input
    let (s,exponent) := s.lexExponent input
    .ok (s,fraction || exponent)

def lexDigits (s : Lexer) (startPosition : ℕ) : Except Stop (Lexer × Bool) :=
  let radix := s.peek input 1
  if s.peek input 0 = '0'.toNat ∧ (radix = 'x'.toNat ∨ radix = 'X'.toNat) then
    (s.lexRadix input isHexDigit hexadecimalMessage startPosition).map fun s => (s,false)
  else if s.peek input 0 = '0'.toNat ∧ (radix = 'b'.toNat ∨ radix = 'B'.toNat) then
    (s.lexRadix input isBinaryDigit binaryMessage startPosition).map fun s => (s,false)
  else if s.peek input 0 = '0'.toNat ∧ (radix = 'o'.toNat ∨ radix = 'O'.toNat) then
    (s.lexOctal input startPosition).map fun s => (s,false)
  else s.lexDecimal input startPosition

def lexNumber (s : Lexer) (startPosition : ℕ) : Except Stop Lexer := do
  let (s,isFloat) ← s.lexDigits input startPosition
  let c := s.peek input 0
  if c = 'f'.toNat ∨ c = 'F'.toNat then .ok ((s.advance input).emit .floatLiteral startPosition)
  else if c = 'd'.toNat ∨ c = 'D'.toNat then .ok ((s.advance input).emit .doubleLiteral startPosition)
  else if c = 'l'.toNat ∨ c = 'L'.toNat then
    .ok ((s.advance input).emit (if isFloat then .doubleLiteral else .longLiteral) startPosition)
  else .ok (s.emit (if isFloat then .doubleLiteral else .intLiteral) startPosition)

/-! ### Strings and characters -/

def consumeEscape (inString : Bool) (s : Lexer) : Except Stop Lexer :=
  let escapeStart := s.position
  let s := s.advance input
  if s.atEnd input then .ok s
  else
    let escaped := s.peek input 0
    if isSimpleEscape escaped then .ok (s.advance input)
    else if escaped = 'u'.toNat then
      let s := s.advance input
      if isHexDigit (s.peek input 0) ∧ isHexDigit (s.peek input 1) ∧ isHexDigit (s.peek input 2)
          ∧ isHexDigit (s.peek input 3) then
        .ok ((((s.advance input).advance input).advance input).advance input)
      else do
        let sequence ← input.substring escapeStart s.position
        .ok (s.report (utf8 "'" ++ sequence.bytes ++ utf8 ("' must be followed by four hexadecimal digits, "
          ++ "the code of a character. Write the code after '") ++ sequence.bytes
          ++ utf8 "', for example '\\u00E9' for 'é'.") escapeStart s.position)
    else
      let s := s.advance input
      let trailing := utf8SequenceLength escaped - 1
      let s := { s with position := s.position +
        (((input.bytes.drop s.position).take trailing).takeWhile isContinuationByte).length }
      do
        let sequence ← input.substring escapeStart s.position
        let character ← input.substring (escapeStart + 1) s.position
        let escapes := utf8 ("a backslash starts an escape that writes a special character, such as "
          ++ "'\\n' for a new line, '\\t' for a tab or '\\\\' for a backslash.")
        if inString then
          .ok (s.report (utf8 "'" ++ sequence.bytes ++ utf8 "' is not an escape. In a string, " ++ escapes
            ++ utf8 " Write '\\\\" ++ character.bytes ++ utf8 "' for a backslash followed by '"
            ++ character.bytes ++ utf8 "'.") escapeStart s.position)
        else
          .ok (s.report (utf8 "'" ++ sequence.bytes ++ utf8 "' is not an escape. In a character, " ++ escapes)
            escapeStart s.position)

def braceMessage : List ℕ :=
  utf8 ("In a string, '\x7b' starts a value to insert, as in '\"total: \x7bcount\x7d\"', and the text after "
    ++ "this '\x7b' is not one. Write '\\\x7b' to put the brace itself in the string.")

inductive BodyEnd
  | closed
  | hole
  | line
  deriving DecidableEq, Repr

def stringLoop (s : Lexer) : Except Stop (Lexer × BodyEnd) :=
  loop .endless (fun s =>
    if s.atEnd input then .ok (.done (s,.line))
    else
      let c := s.peek input 0
      if c = '"'.toNat then .ok (.done (s.advance input,.closed))
      else if c = '{'.toNat then do
        let stop ← holeEndOnLine input (s.position + 1)
        if stop = LineEnd.insideLiteral then
          .ok (.next ((s.report braceMessage s.position (s.position + 1)).advance input))
        else .ok (.done (s.advance input,.hole))
      else if isLineEnd c then .ok (.done (s,.line))
      else if c = '\\'.toNat then do
        let s ← s.consumeEscape input true
        .ok (.next s)
      else .ok (.next (s.advance input))) (input.length + 1) s

def lexStringBody (s : Lexer) (startPosition : ℕ) (atStart : Bool) : Except Stop Lexer := do
  let (s,ended) ← s.stringLoop input
  let s := if ended = .line then
      s.report (utf8 ("This string has no closing '\"' on its line. A string ends on the line it "
        ++ "starts on. Add '\"' where the text ends.")) startPosition s.position
    else s
  if atStart = true ∧ ended ≠ .hole then .ok (s.emit .stringLiteral startPosition)
  else if atStart then do
    let s ← s.pushHole 0
    .ok (s.emit .interpolatedStringStart startPosition)
  else if ended = .hole then .ok (s.emit .interpolatedStringMiddle startPosition)
  else
    let s := if s.holeStackEmpty then s else s.popHole
    .ok (s.emit .interpolatedStringEnd startPosition)

def lexString (s : Lexer) (startPosition : ℕ) : Except Stop Lexer :=
  (s.advance input).lexStringBody input startPosition true

def characterLoop (s : Lexer) : Except Stop (Lexer × Bool) :=
  loop .endless (fun s =>
    if s.atEnd input then .ok (.done (s,false))
    else
      let c := s.peek input 0
      if c = '\''.toNat then .ok (.done (s.advance input,true))
      else if isLineEnd c then .ok (.done (s,false))
      else if c = '\\'.toNat then do
        let s ← s.consumeEscape input false
        .ok (.next s)
      else .ok (.next (s.advance input))) (input.length + 1) s

def lexCharacter (s : Lexer) (startPosition : ℕ) : Except Stop Lexer := do
  let reportedBefore := s.diagnostics.length
  let (s,closed) ← (s.advance input).characterLoop input
  let s ←
    if closed = false then
      .ok (s.report (utf8 ("This character has no closing quote on its line. Write one character "
        ++ "between two single quotes, for example 'a'.")) startPosition s.position)
    else if s.diagnostics.length = reportedBefore then do
      let literal ← input.substring startPosition s.position
      let count ← characterLiteralLength literal
      if count ≠ 1 then do
        let refusal ← characterLengthRefusal literal
        .ok (s.report refusal startPosition s.position)
      else .ok s
    else .ok s
  .ok (s.emit .charLiteral startPosition)

/-! ### Operators and the characters no token begins with -/

def lexInvalidCharacter (s : Lexer) (startPosition : ℕ) : Except Stop Lexer := do
  let runEnd ← refusedRunEnd input startPosition
  let s ← s.advanceTo input runEnd
  let s ← s.reportRefused input startPosition
  .ok (s.emit .invalid startPosition)

def advanceBy : ℕ → Lexer → Lexer
  | 0, s => s
  | count + 1, s => advanceBy count (s.advance input)

def consumeOperator (count : ℕ) (operatorKind : SyntaxKind) (s : Lexer) (startPosition : ℕ) : Lexer :=
  (s.advanceBy input count).emit operatorKind startPosition

/-- The characters of an operator stand at the position. -/
def startsWith (s : Lexer) (operator : List Char) : Bool :=
  decide ((List.range operator.length).map (s.peek input) = operator.map Char.toNat)

def lexOperator (s : Lexer) (startPosition : ℕ) : Except Stop Lexer :=
  match operators.find? fun row => s.startsWith input row.1 with
  | some (operator,kind) => .ok (s.consumeOperator input operator.length kind startPosition)
  | none =>
    match singleCharacterKind (s.peek input 0) with
    | some single => .ok (s.consumeOperator input 1 single startPosition)
    | none => s.lexInvalidCharacter input startPosition

/-! ### Pieces -/

def scanToken (s : Lexer) (startPosition c : ℕ) : Except Stop Lexer :=
  if isSpace c then .ok (s.lexWhitespace input startPosition)
  else if isLineEnd c then .ok (s.lexNewline input startPosition)
  else if c = '/'.toNat then
    if s.peek input 1 = '/'.toNat then .ok (s.lexLineComment input startPosition)
    else if s.peek input 1 = '*'.toNat then .ok (s.lexBlockComment input startPosition)
    else s.lexOperator input startPosition
  else if isDigit c then s.lexNumber input startPosition
  else if isIdentifierStart c then s.lexIdentifierOrKeyword input startPosition
  else if c = '"'.toNat then s.lexString input startPosition
  else if c = '\''.toNat then s.lexCharacter input startPosition
  else s.lexOperator input startPosition

def scanPiece (s : Lexer) : Except Stop Lexer :=
  let startPosition := s.position
  let c := s.peek input 0
  if s.holeStackEmpty then s.scanToken input startPosition c
  else do
    let depth ← s.holeTop
    if c = '}'.toNat ∧ depth = 0 then (s.advance input).lexStringBody input startPosition false
    else if c = '{'.toNat then do
      let s ← s.setHoleTop (depth + 1)
      s.scanToken input startPosition c
    else if c = '}'.toNat then do
      let s ← s.setHoleTop (depth - 1)
      s.scanToken input startPosition c
    else s.scanToken input startPosition c

def scanByteOrderMark (s : Lexer) : Lexer :=
  if s.peek input 0 ≠ 0xEF ∨ s.peek input 1 ≠ 0xBB ∨ s.peek input 2 ≠ 0xBF then s
  else (((s.advance input).advance input).advance input).emit .whitespace 0

def scanAll (s : Lexer) : Except Stop Lexer := do
  let s ← loop .endless (fun s =>
    if s.atEnd input then .ok (.done s)
    else do
      let s ← s.scanPiece input
      .ok (.next s)) (input.length + 1) (s.scanByteOrderMark input)
  .ok (s.emit .endOfFile s.position)

end Lexer

/-! ### Trivia around tokens -/

def isTriviaPiece (pieceKind : SyntaxKind) : Bool := pieceKind.isTrivia || decide (pieceKind = .invalid)

def trailingTrivia : List RawToken → List RawToken
  | [] => []
  | p :: pieces =>
    if isTriviaPiece p.kind then
      if p.kind = .newline then [p] else p :: trailingTrivia pieces
    else []

def attachTrivia (pieces : List RawToken) : Except Stop (List LexedToken) :=
  loop .endless (fun (rest,tokens) =>
    if rest = [] then .ok (.done tokens)
    else
      match rest.dropWhile fun p => isTriviaPiece p.kind with
      | [] => .error .abort
      | token :: after =>
        let lexed : LexedToken := {
          kind := token.kind
          offset := token.offset
          length := token.length
          leading := rest.takeWhile fun p => isTriviaPiece p.kind
          trailing := trailingTrivia after }
        if token.kind = .endOfFile then .ok (.done (tokens ++ [lexed]))
        else .ok (.next (after.drop (trailingTrivia after).length,tokens ++ [lexed])))
    (pieces.length + 1) (pieces,([] : List LexedToken))

def lex (input : Text) : Except Stop LexResult := do
  let lexer ← ({} : Lexer).scanAll input
  let tokens ← attachTrivia lexer.pieces
  .ok ⟨lexer.pieces,tokens,lexer.diagnostics⟩

end Ens.Lex
