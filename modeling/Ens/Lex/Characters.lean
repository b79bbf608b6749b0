import Ens.Logic.Loop
import Ens.Text.Text

/-! # Token kinds and tokens

The kinds of tokens and of trivia, the keywords, and the pieces the lexer makes. A piece is a
span of the source and never a copy of it.
-/
namespace Ens.Lex

inductive SyntaxKind
  | whitespace | newline | lineComment | blockComment | endOfFile | invalid | missing | intLiteral
  | longLiteral | floatLiteral | doubleLiteral | stringLiteral | charLiteral
  | interpolatedStringStart | interpolatedStringMiddle | interpolatedStringEnd | identifier
  | openParenthesis | closeParenthesis | openBrace | closeBrace | openBracket | closeBracket
  | semicolon | comma | dot | ellipsis | colon | arrow | atSign | plus | minus | star | slash
  | percent | caret | equals | exclamation | tilde | question | questionDot | equalsEquals
  | notEquals | less | greater | lessEquals | greaterEquals | ampersandAmpersand | pipePipe
  | ampersand | pipe | plusPlus | minusMinus | lessLess | greaterGreater | greaterGreaterGreater
  | plusEquals | minusEquals | starEquals | slashEquals | percentEquals | ampersandEquals
  | pipeEquals | caretEquals | lessLessEquals | greaterGreaterEquals | greaterGreaterGreaterEquals
  | boolKeyword | byteKeyword | shortKeyword | uShortKeyword | intKeyword | uIntKeyword
  | longKeyword | uLongKeyword | floatKeyword | doubleKeyword | decimalKeyword | charKeyword
  | stringKeyword | voidKeyword | abstractKeyword | asKeyword | breakKeyword | catchKeyword
  | classKeyword | constKeyword | continueKeyword | defaultKeyword | elseKeyword | enumKeyword
  | exportKeyword | extendsKeyword | externalKeyword | falseKeyword | finalKeyword | forKeyword
  | ifKeyword | implementsKeyword | importKeyword | interfaceKeyword | isKeyword | lazyKeyword
  | letKeyword | mutatingKeyword | newKeyword | noreturnKeyword | nullKeyword | overrideKeyword
  | privateKeyword | protectedKeyword | publicKeyword | rethrowKeyword | returnKeyword
  | sealedKeyword | staticKeyword | structKeyword | superKeyword | switchKeyword | thisKeyword
  | throwKeyword | throwsKeyword | trueKeyword | tryKeyword | weakKeyword | whileKeyword
  | constructorKeyword | destructorKeyword | assertKeyword | caseKeyword | computedKeyword
  | doKeyword | finallyKeyword | gotoKeyword | packageKeyword | outKeyword | inKeyword
  | testKeyword | fromKeyword | typeKeyword | primitiveKeyword | embedKeyword | folderKeyword
  | sharedKeyword | workspaceKeyword | overridesKeyword | versionKeyword | ensKeyword
  | dependencyKeyword | memberKeyword | nativeKeyword | systemKeyword | artifactKeyword
  | hashKeyword
  deriving DecidableEq, Repr

namespace SyntaxKind

def isTrivia : SyntaxKind → Bool
  | whitespace | newline | lineComment | blockComment => true
  | _ => false

end SyntaxKind

/-- The words that are keywords wherever they stand. -/
def keywords : List (String × SyntaxKind) := [
  ("bool",.boolKeyword),("byte",.byteKeyword),("short",.shortKeyword),("ushort",.uShortKeyword),
  ("int",.intKeyword),("uint",.uIntKeyword),("long",.longKeyword),("ulong",.uLongKeyword),
  ("float",.floatKeyword),("double",.doubleKeyword),("decimal",.decimalKeyword),
  ("char",.charKeyword),("string",.stringKeyword),("void",.voidKeyword),
  ("abstract",.abstractKeyword),("as",.asKeyword),("break",.breakKeyword),("catch",.catchKeyword),
  ("class",.classKeyword),("const",.constKeyword),("continue",.continueKeyword),
  ("default",.defaultKeyword),("else",.elseKeyword),("enum",.enumKeyword),("export",.exportKeyword),
  ("extends",.extendsKeyword),("external",.externalKeyword),("false",.falseKeyword),
  ("final",.finalKeyword),("for",.forKeyword),("if",.ifKeyword),("implements",.implementsKeyword),
  ("import",.importKeyword),("interface",.interfaceKeyword),("is",.isKeyword),("lazy",.lazyKeyword),
  ("let",.letKeyword),("mutating",.mutatingKeyword),("new",.newKeyword),
  ("noreturn",.noreturnKeyword),("null",.nullKeyword),("override",.overrideKeyword),
  ("private",.privateKeyword),("protected",.protectedKeyword),("public",.publicKeyword),
  ("rethrow",.rethrowKeyword),("return",.returnKeyword),("sealed",.sealedKeyword),
  ("static",.staticKeyword),("struct",.structKeyword),("super",.superKeyword),
  ("switch",.switchKeyword),("this",.thisKeyword),("throw",.throwKeyword),("throws",.throwsKeyword),
  ("true",.trueKeyword),("try",.tryKeyword),("weak",.weakKeyword),("while",.whileKeyword),
  ("constructor",.constructorKeyword),("destructor",.destructorKeyword),("assert",.assertKeyword),
  ("case",.caseKeyword),("computed",.computedKeyword),("do",.doKeyword),("finally",.finallyKeyword),
  ("goto",.gotoKeyword),("package",.packageKeyword)]

def keywordFromText (text : Text) : Option SyntaxKind :=
  (keywords.find? fun kw => decide (utf8 kw.1 = text.bytes)).map Prod.snd

theorem keywords_significant : ∀ kw ∈ keywords, kw.2 ≠ .endOfFile ∧ kw.2.isTrivia = false := by
  decide

theorem keywordFromText_significant {text : Text} {kind : SyntaxKind}
    (h : keywordFromText text = some kind) : kind ≠ .endOfFile ∧ kind.isTrivia = false := by
  obtain ⟨kw,hf,rfl⟩ := Option.map_eq_some_iff.mp h
  exact keywords_significant kw (List.mem_of_find?_eq_some hf)

structure RawToken where
  kind : SyntaxKind := .invalid
  offset : ℕ
  length : ℕ
  deriving DecidableEq, Repr

structure LexedToken where
  kind : SyntaxKind := .endOfFile
  offset : ℕ
  length : ℕ
  leading : List RawToken := []
  trailing : List RawToken := []
  deriving DecidableEq, Repr

/-- A message about a span of the source. -/
structure Diagnostic where
  message : List ℕ
  start : ℕ
  length : ℕ
  deriving DecidableEq, Repr

def RawToken.stop (p : RawToken) : ℕ := p.offset + p.length

end Ens.Lex

/-! ## Bytes and character literals

The classes of bytes the lexer tells apart, and what it says of a character literal that does
not hold exactly one character. The reading of a literal cuts it only at places where a
character begins, as long as each backslash in it starts a whole escape.
-/
namespace Ens.Lex
open Loop

def isAsciiLetter (c : ℕ) : Bool :=
  (decide ('a'.toNat ≤ c) && decide (c ≤ 'z'.toNat)) || (decide ('A'.toNat ≤ c) && decide (c ≤ 'Z'.toNat))

def isDigit (c : ℕ) : Bool := decide ('0'.toNat ≤ c) && decide (c ≤ '9'.toNat)

def isHexDigit (c : ℕ) : Bool :=
  isDigit c || (decide ('a'.toNat ≤ c) && decide (c ≤ 'f'.toNat)) ||
    (decide ('A'.toNat ≤ c) && decide (c ≤ 'F'.toNat))

def isIdentifierStart (c : ℕ) : Bool :=
  isAsciiLetter c || decide (c = '_'.toNat) || decide (c = '$'.toNat)

def isIdentifierContinue (c : ℕ) : Bool := isIdentifierStart c || isDigit c

def isSimpleEscape (c : ℕ) : Bool :=
  decide (c ∈ ['\\'.toNat,'"'.toNat,'\''.toNat,'n'.toNat,'r'.toNat,'t'.toNat,'b'.toNat,'f'.toNat,
    '0'.toNat,'{'.toNat,'}'.toNat])

def isContinuationByte (c : ℕ) : Bool := decide (0x80 ≤ c) && decide (c ≤ 0xBF)

/-- The bytes of a character from its lead byte, or 1 for a byte that leads none. -/
def utf8SequenceLength (lead : ℕ) : ℕ :=
  if lead < 0x80 then 1
  else if 0xF0 ≤ lead ∧ lead ≤ 0xF7 then 4
  else if 0xE0 ≤ lead ∧ lead ≤ 0xEF then 3
  else if 0xC0 ≤ lead ∧ lead ≤ 0xDF then 2
  else 1

def hexValue (c : ℕ) : ℕ :=
  if isDigit c then c - '0'.toNat
  else if 'a'.toNat ≤ c ∧ c ≤ 'f'.toNat then c - 'a'.toNat + 10
  else c - 'A'.toNat + 10

/-- The bytes of the escape at an index, without the continuation bytes of an escaped
character outside ASCII. -/
def escapeLength (text : Text) (index : ℕ) : ℕ :=
  match text.bytes.drop (index + 1) with
  | u :: a :: b :: c :: d :: _ =>
    if u = 'u'.toNat ∧ isHexDigit a ∧ isHexDigit b ∧ isHexDigit c ∧ isHexDigit d then 6 else 2
  | _ => 2

def characterLiteralLength (literal : Text) : Except Stop ℕ :=
  loop .endless (fun (index,count) =>
    if index < literal.length - 1 then do
      let c ← literal.byteAt index
      if c = '\\'.toNat then .ok (.next (index + escapeLength literal index,count + 1))
      else if isContinuationByte c then .ok (.next (index + 1,count))
      else .ok (.next (index + 1,count + 1))
    else .ok (.done count)) (literal.length + 1) (1,0)

def characterBytes (text : Text) (index : ℕ) : Except Stop ℕ := do
  let lead ← text.byteAt index
  if lead = '\\'.toNat then .ok (escapeLength text index)
  else if text.length < index + utf8SequenceLength lead then .ok (text.length - index)
  else .ok (utf8SequenceLength lead)

def codePointAt (text : Text) (index length : ℕ) : Except Stop ℕ := do
  let lead ← text.byteAt index
  if lead = '\\'.toNat ∧ length = 6 then
    [index + 2,index + 3,index + 4,index + 5].foldlM (fun value digit => do
      let c ← text.byteAt digit
      .ok (value * 16 + hexValue c)) 0
  else if lead = '\\'.toNat then text.byteAt (index + 1)
  else if length = 1 then .ok lead
  else
    let leadBits := if length = 2 then 0x1F else if length = 3 then 0x0F else 0x07
    (List.range' (index + 1) (length - 1)).foldlM (fun value next => do
      let c ← text.byteAt next
      .ok (value * 64 + (c &&& 0x3F))) (lead &&& leadBits)

/-- Whether a code point changes the character before it rather than standing alone. -/
def joinsPrevious (codePoint : ℕ) : Bool :=
  [(0x0300,0x036F),(0x1AB0,0x1AFF),(0x1DC0,0x1DFF),(0x20D0,0x20FF),(0xFE20,0xFE2F),(0x200D,0x200D),
    (0xFE00,0xFE0F)].any fun r => decide (r.1 ≤ codePoint) && decide (codePoint ≤ r.2)

def hasJoiningMark (content : Text) : Except Stop Bool :=
  loop .endless (fun (index,first) =>
    if index < content.length then do
      let c ← content.byteAt index
      if isContinuationByte c then .ok (.next (index + 1,first))
      else do
        let length ← characterBytes content index
        if first then .ok (.next (index + length,false))
        else do
          let codePoint ← codePointAt content index length
          if joinsPrevious codePoint then .ok (.done true)
          else .ok (.next (index + length,false))
    else .ok (.done false)) (content.length + 1) (0,true)

def stringContent (content : Text) : Except Stop (List ℕ) :=
  loop .endless (fun (written,runStart,index) =>
    if index < content.length then do
      let c ← content.byteAt index
      if c = '\\'.toNat then .ok (.next (written,runStart,index + escapeLength content index))
      else if c = '"'.toNat ∨ c = '{'.toNat ∨ c = '}'.toNat then do
        let run ← content.substring runStart index
        .ok (.next (written ++ run.bytes ++ utf8 "\\",index,index + 1))
      else .ok (.next (written,runStart,index + 1))
    else do
      let run ← content.substring runStart content.length
      .ok (.done (written ++ run.bytes))) (content.length + 1) ([],0,0)

def firstCharacter (content : Text) : Except Stop Text := do
  let length ← characterBytes content 0
  content.substring 0 length

def characterLengthRefusal (literal : Text) : Except Stop (List ℕ) := do
  let count ← characterLiteralLength literal
  let content ← literal.substring 1 (literal.length - 1)
  if count = 0 then
    .ok (utf8 ("'' has no character between its quotes, but a character literal must have exactly "
      ++ "one. Write the character between the quotes, as in 'a', or write '\"\"' for an empty "
      ++ "string."))
  else do
    let string ← stringContent content
    let text := utf8 "'\"" ++ string ++ utf8 "\"'"
    let joined ← hasJoiningMark content
    if joined then
      .ok (literal.bytes ++ utf8 " is made of " ++ utf8 (toString count)
        ++ utf8 (" Unicode code points, but a character literal must have "
          ++ "exactly one. A code point is one numbered entry in Unicode, and some characters, such as "
          ++ "a letter with a separate accent mark, take more than one. Write ") ++ text
        ++ utf8 " to make it a string.")
    else do
      let first ← firstCharacter content
      .ok (literal.bytes ++ utf8 " has " ++ utf8 (toString count)
        ++ utf8 " characters, but a character literal must have exactly one. Write " ++ text
        ++ utf8 " to make it a string, or keep one character, as in '" ++ first.bytes ++ utf8 "'.")

end Ens.Lex
