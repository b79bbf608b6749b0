import Ens.Parse.Operators
import Ens.Parse.Open

/-! # What speculation leaves behind

The parser looks ahead by parsing, and takes back what it did. A mark holds counts of lists that only grow and some of the fields; every other
field has to come out of the parse as it went in, and nothing written before the mark may be rewritten.
-/
set_option linter.all false
namespace Ens.Parse.Speculation
open Loop Ens.Lex

/-! ### The parser's state -/

inductive NodeKind
  | list | errorType | functionType | throwsClause | parenthesizedType | optionalType | arrayType | namedType | typeQualifier | typeArgumentList
  | typeParameterList | typeParameter | boundsClause
  deriving DecidableEq

inductive Happening
  | tombstone
  | startNode (kind : NodeKind)
  | token (kind : SyntaxKind) (tokenIndex : ℤ) (pieceStart pieceLength : ℕ) (takeLeading takeTrailing : Bool)
  | finishNode
  | nullSlot
  deriving DecidableEq

structure ParseEvent where
  happening : Happening := .tombstone
  forwardParent : Option ℕ := none
  deriving DecidableEq

structure Report where
  message : String
  start : ℕ
  length : ℕ
  deriving DecidableEq

inductive RecoveryScope
  | construct | file
  deriving DecidableEq

structure Recovery where
  start : ℕ
  scope : RecoveryScope
  deriving DecidableEq

structure Source where
  input : Text
  lexedTokens : List LexedToken

structure Parser where
  cursor : ℕ
  splitOffset : ℕ
  contentEnd : ℕ
  events : List ParseEvent
  diagnostics : List Report
  recoveries : List Recovery
  nestingDepth : ℤ
  depthLimits : List Report
  carriedDepthLimits : List Report
  roomRefusals : ℕ
  openLimitScopes : ℤ
  limitReportScope : ℤ
  openBlocks : ℤ
  closedAtHeader : ℤ
  missingReportedAt : ℤ
  missingReportedMessage : String
  functionColumn : ℕ
  refusedNames : List (List ℕ)
  parsingArmLabels : Bool
  deriving DecidableEq

structure ParserMark where
  position : ℕ
  splitOffset : ℕ
  lastContentEnd : ℕ
  eventCount : ℕ
  diagnosticCount : ℕ
  depthLimitCount : ℕ
  roomRefusalCount : ℕ
  recoveryCount : ℕ
  limitReportScope : ℤ
  closedAtHeader : ℤ
  missingReportedAt : ℤ
  missingReportedMessage : String
  functionColumn : ℕ
  refusedNameCount : ℕ

/-- A step of the parser, which an index outside the source or a loop without end stops. -/
abbrev Parsing := StateT Parser Option

section
variable (src : Source)

/-! ### The cursor -/

def token (i : ℕ) : LexedToken := src.lexedTokens.getD i { offset := 0, length := 0 }

def splitRemainderKind (kind : SyntaxKind) (consumed : ℕ) : SyntaxKind :=
  match kind with
  | .greaterGreater => .greater
  | .greaterGreaterGreater => if consumed = 1 then .greaterGreater else .greater
  | .greaterEquals => .equals
  | .greaterGreaterEquals => if consumed = 1 then .greaterEquals else .equals
  | .greaterGreaterGreaterEquals => if consumed = 1 then .greaterGreaterEquals else if consumed = 2 then .greaterEquals else .equals
  | .lessLess => .less
  | .lessEquals => .equals
  | .lessLessEquals => if consumed = 1 then .lessEquals else .equals
  | kind => kind

def currentKind (s : Parser) : SyntaxKind :=
  let kind := (token src s.cursor).kind
  if s.splitOffset = 0 then kind else splitRemainderKind kind s.splitOffset

def peekKind (s : Parser) (ahead : ℕ) : SyntaxKind := if ahead = 0 then currentKind src s else (token src (s.cursor + ahead)).kind

def atKind (s : Parser) (kind : SyntaxKind) : Bool := currentKind src s = kind
def atEnd (s : Parser) : Bool := atKind src s .endOfFile

def substring (start stop : ℕ) : List ℕ := (src.input.bytes.drop start).take (stop - start)

def currentText (s : Parser) : List ℕ := substring src ((token src s.cursor).offset + s.splitOffset) (token src s.cursor).stop

def atContextual (s : Parser) (word : String) : Bool := atKind src s .identifier && currentText src s = utf8 word

def peekIsContextual (s : Parser) (ahead : ℕ) (word : String) : Bool :=
  let next := token src (s.cursor + ahead)
  next.kind = .identifier && substring src next.offset next.stop = utf8 word

/-! ### Events -/

def push (happening : Happening) : Parsing Unit := modify fun s => { s with events := s.events ++ [{ happening := happening }] }

def start : Parsing ℕ := fun s => some (s.events.length,{ s with events := s.events ++ [{}] })

def rewrite (events : List ParseEvent) (i : ℕ) (f : ParseEvent → ParseEvent) : List ParseEvent :=
  match events[i]? with
  | some event => events.set i (f event)
  | none => events

def complete (marker : ℕ) (kind : NodeKind) : Parsing ℕ := do
  modify fun s => { s with events := rewrite s.events marker fun event => { event with happening := .startNode kind } }
  push .finishNode
  pure marker

def precede (completed : ℕ) : Parsing ℕ := do
  let marker ← start
  modify fun s => { s with events := rewrite s.events completed fun event => { event with forwardParent := some marker } }
  pure marker

def nullSlot : Parsing Unit := push .nullSlot

def bumpAs (kind : SyntaxKind) : Parsing Unit := do
  let s ← get
  if atEnd src s then pure ()
  else do
    push (.token kind s.cursor s.splitOffset ((token src s.cursor).length - s.splitOffset) (decide (s.splitOffset = 0)) true)
    modify fun s => { s with contentEnd := (token src s.cursor).stop, cursor := s.cursor + 1, splitOffset := 0 }

def bump : Parsing Unit := do
  let s ← get
  bumpAs src (currentKind src s)

def bumpSplit (kind : SyntaxKind) : Parsing Unit := do
  let s ← get
  push (.token kind s.cursor s.splitOffset 1 (decide (s.splitOffset = 0)) false)
  modify fun s => { s with splitOffset := s.splitOffset + 1, contentEnd := (token src s.cursor).offset + (s.splitOffset + 1) }

/-! ### Reports -/

def report (message : String) (start length : ℕ) : Parsing Unit := modify fun s => { s with diagnostics := s.diagnostics ++ [⟨message,start,length⟩] }

def hasInvalidPiece (pieces : List RawToken) : Bool := pieces.any fun piece => piece.kind = .invalid

/-- What the source text says, or a stop where it is read outside its bounds. -/
def reading (answer : Except Stop Bool) : Parsing Bool := fun s =>
  match answer with
  | .ok b => some (b,s)
  | .error _ => none

/-- Whether a problem at a token follows from one the lexer reported, as its pieces and the token before it tell. -/
def followsReported (t : LexedToken) (previous : Option LexedToken) : Except Stop Bool :=
  if hasInvalidPiece t.leading then .ok true
  else match previous with
    | none => .ok false
    | some previous =>
      if hasInvalidPiece previous.trailing then .ok true
      else do
        let leftOpen ← leftOpen src.input previous
        if leftOpen then .ok true
        else if t.kind ≠ .endOfFile then .ok false
        else do
          let before ← endsInOpenComment src.input t.leading
          if before then .ok true else endsInOpenComment src.input previous.trailing

def followsLexerError (s : Parser) : Parsing Bool :=
  reading (followsReported src (token src s.cursor) (if s.cursor = 0 then none else some (token src (s.cursor - 1))))

def reportMissing (message : String) : Parsing Unit := do
  let s ← get
  if s.closedAtHeader = s.cursor then pure ()
  else do
    let follows ← followsLexerError src s
    if follows || decide (s.missingReportedAt = s.contentEnd ∧ s.missingReportedMessage = message) then pure ()
    else do
      report message s.contentEnd 0
      modify fun s => { s with missingReportedAt := s.contentEnd, missingReportedMessage := message }

def missingCostsNothing (expected : SyntaxKind) : Bool := expected = .semicolon || expected = .comma

def scopeForMissing (expected : SyntaxKind) : RecoveryScope := if expected = .closeBrace then .file else .construct

def missing (expected : SyntaxKind) (message : String) : Parsing Unit := do
  push (.token .missing (-1) 0 0 false false)
  bif missingCostsNothing expected then pure ()
  else modify fun s => { s with recoveries := s.recoveries ++ [⟨s.contentEnd,scopeForMissing expected⟩] }
  reportMissing src message

def expect (kind : SyntaxKind) (message : String) : Parsing Unit := do
  let s ← get
  if atKind src s kind then bump src else missing src kind message

/-! ### Marks -/

def mark : Parsing ParserMark := fun s => some (⟨s.cursor,s.splitOffset,s.contentEnd,s.events.length,s.diagnostics.length,s.depthLimits.length,
  s.roomRefusals,s.recoveries.length,s.limitReportScope,s.closedAtHeader,s.missingReportedAt,s.missingReportedMessage,s.functionColumn,
  s.refusedNames.length⟩,s)

def rewind (restore : ParserMark) : Parsing Unit := modify fun s => { s with
  cursor := restore.position, splitOffset := restore.splitOffset, contentEnd := restore.lastContentEnd,
  events := s.events.take restore.eventCount, diagnostics := s.diagnostics.take restore.diagnosticCount,
  depthLimits := s.depthLimits.take restore.depthLimitCount, roomRefusals := restore.roomRefusalCount,
  recoveries := s.recoveries.take restore.recoveryCount, limitReportScope := restore.limitReportScope,
  closedAtHeader := restore.closedAtHeader, missingReportedAt := restore.missingReportedAt,
  missingReportedMessage := restore.missingReportedMessage, functionColumn := restore.functionColumn,
  refusedNames := s.refusedNames.take restore.refusedNameCount }

def clean (s : Parser) (restore : ParserMark) : Bool :=
  s.diagnostics.length = restore.diagnosticCount && s.recoveries.length = restore.recoveryCount

def carryDepthLimits (restore : ParserMark) : Parsing Unit := modify fun s => { s with
  carriedDepthLimits := (s.depthLimits.drop restore.depthLimitCount).foldl
    (fun carried limit => if limit ∈ carried then carried else carried ++ [limit]) s.carriedDepthLimits }

/-! ### Nesting -/

def reportLimitOnce (message : String) (offset : ℕ) : Parsing Unit := modify fun s =>
  if s.limitReportScope ≠ -1 then s
  else { s with depthLimits := s.depthLimits ++ [⟨message,offset,0⟩], limitReportScope := s.openLimitScopes }

def enterNesting (message : String) : Parsing Bool := do
  let s ← get
  if s.nestingDepth ≥ Nesting.maximumDepth then do
    reportLimitOnce message s.contentEnd
    pure false
  else do
    modify fun s => { s with nestingDepth := s.nestingDepth + 1 }
    pure true

def leaveNestingTimes (count : ℤ) : Parsing Unit := modify fun s => { s with nestingDepth := s.nestingDepth - count }

def repeating {σ : Type} (body : σ → Parsing (σ × Bool)) : ℕ → σ → Parsing σ
  | 0, _ => failure
  | left + 1, x => do
    let (x,more) ← body x
    if more then repeating body left x else pure x

/-! ### Angle brackets and parentheses -/

def atClosingAngle (s : Parser) : Bool :=
  match currentKind src s with
  | .greater | .greaterGreater | .greaterGreaterGreater | .greaterEquals | .greaterGreaterEquals | .greaterGreaterGreaterEquals => true
  | _ => false

def expectClosingAngle (message : String) : Parsing Unit := do
  let s ← get
  if atKind src s .greater then bump src
  else if atClosingAngle src s then bumpSplit src .greater
  else missing src .greater message

def expectOpeningAngle (message : String) : Parsing Unit := do
  let s ← get
  if atKind src s .less then bump src
  else if atKind src s .lessLess || atKind src s .lessLessEquals then bumpSplit src .less
  else missing src .less message

def arrowAfter : ℤ → List LexedToken → Bool
  | _, [] => false
  | depth, t :: ts =>
    if t.kind = .endOfFile then false
    else
      let depth := if t.kind = .openParenthesis then depth + 1 else if t.kind = .closeParenthesis then depth - 1 else depth
      if depth = 0 then (ts.head?.map fun next => decide (next.kind = .arrow)).getD false else arrowAfter depth ts

def atArrowAfterParentheses (s : Parser) (offset : ℕ) : Bool := arrowAfter 0 (src.lexedTokens.drop (s.cursor + offset))

def atSharedFunctionType (s : Parser) : Bool :=
  atContextual src s "shared" && decide (peekKind src s 1 = .openParenthesis) && atArrowAfterParentheses src s 1

def atQuestionPair (s : Parser) : Bool := atKind src s .question && (token src (s.cursor + 1)).kind = .question

def adjacent (s : Parser) : Bool := (token src s.cursor).stop = (token src (s.cursor + 1)).offset

def atSafeSubscript (s : Parser) : Bool := atKind src s .question && (token src (s.cursor + 1)).kind = .openBracket && adjacent src s

def leavesQuestionToExpression (s : Parser) : Bool :=
  (atQuestionPair src s && adjacent src s) || (atSafeSubscript src s && decide (peekKind src s 2 ≠ .closeBracket))

/-! ### Types -/

def deeplyNestedType : String :=
  "This type is nested too deeply to compile. Put fewer type arguments, parentheses and '?' or '[]' suffixes inside one another."

section
variable (fuel : ℕ) (parseType : String → Parsing ℕ)

def parseRest (closes : Parser → Bool) (item : Parsing Unit) : Parsing Unit :=
  repeating (fun _ => do
    let s ← get
    if atKind src s .comma then do
      bump src
      let s ← get
      if closes s then pure ((),false)
      else do
        item
        pure ((),true)
    else pure ((),false)) fuel ()

def parseTypeArgumentList : Parsing Unit := do
  let marker ← start
  expectOpeningAngle src "Expected '<' to begin the type arguments."
  let list ← start
  let s ← get
  bif !atClosingAngle src s && !atEnd src s then do
    let _ ← parseType "Expected a type argument. For example, write 'List<int>'."
    parseRest src fuel (atClosingAngle src) do
      let _ ← parseType "Expected a type argument after ','."
      pure ()
  else pure ()
  let _ ← complete list .list
  expectClosingAngle src "Expected '>' to close the type arguments."
  let _ ← complete marker .typeArgumentList
  pure ()

def tryParseTypeArgumentList : Parsing Bool := do
  let restore ← mark
  parseTypeArgumentList src fuel parseType
  let s ← get
  if clean s restore then pure true
  else do
    carryDepthLimits restore
    rewind restore
    pure false

def parseNamedType (missingMessage : String) : Parsing ℕ := do
  let marker ← start
  let s ← get
  bif atKind src s .identifier && decide (peekKind src s 1 = .dot) && decide (peekKind src s 2 = .identifier) then do
    let qualifier ← start
    bump src
    bump src
    let _ ← complete qualifier .typeQualifier
    pure ()
  else nullSlot
  let s ← get
  bif isTypeStart (currentKind src s) then bump src else missing src .identifier missingMessage
  let s ← get
  bif atKind src s .less then do
    let taken ← tryParseTypeArgumentList src fuel parseType
    if taken then pure () else nullSlot
  else nullSlot
  complete marker .namedType

def parseThrowsClause : Parsing Unit := do
  let marker ← start
  bump src
  let types ← start
  let s ← get
  bif isTypeStart (currentKind src s) then do
    let _ ← parseNamedType src fuel parseType "Expected an error type after 'throws'. For example, write 'throws Error'."
    parseRest src fuel (fun _ => false) do
      let _ ← parseNamedType src fuel parseType "Expected an error type after ','."
      pure ()
  else pure ()
  let _ ← complete types .list
  let _ ← complete marker .throwsClause
  pure ()

def parseFunctionType : Parsing ℕ := do
  let marker ← start
  let s ← get
  bif atContextual src s "shared" then bumpAs src .sharedKeyword else nullSlot
  bump src
  let list ← start
  let s ← get
  bif !atKind src s .closeParenthesis && !atEnd src s then do
    let _ ← parseType "Expected a parameter type. For example, write '(int, int) -> int'."
    parseRest src fuel (fun s => atKind src s .closeParenthesis) do
      let _ ← parseType "Expected a parameter type after ','."
      pure ()
  else pure ()
  let _ ← complete list .list
  expect src .closeParenthesis "Expected ')' to close the function type's parameter types."
  expect src .arrow "Expected '->' after the parameter types. For example, write '(int, int) -> int'."
  let _ ← parseType "Expected the return type after '->'. For example, write '(int, int) -> int'."
  let s ← get
  bif atKind src s .throwsKeyword then parseThrowsClause src fuel parseType else nullSlot
  complete marker .functionType

def parseParenthesizedType : Parsing ℕ := do
  let marker ← start
  bump src
  let _ ← parseType "Expected a type inside the parentheses. For example, write '((int) -> bool)?'."
  expect src .closeParenthesis
    "Expected ')' after the type in parentheses. A function type also needs '->' and a return type, as in '(int, int) -> int'."
  complete marker .parenthesizedType

def parseTypeHead (missingMessage : String) : Parsing ℕ := do
  let s ← get
  if atSharedFunctionType src s then parseFunctionType src fuel parseType
  else if atKind src s .openParenthesis then
    if atArrowAfterParentheses src s 0 then parseFunctionType src fuel parseType else parseParenthesizedType src parseType
  else parseNamedType src fuel parseType missingMessage

def skipTypeSuffixes (leaveCoalesceToExpression : Bool) : Parsing Unit :=
  repeating (fun _ => do
    let s ← get
    if atKind src s .question && !(leaveCoalesceToExpression && leavesQuestionToExpression src s) then do
      bump src
      pure ((),true)
    else if atKind src s .openBracket && decide (peekKind src s 1 = .closeBracket) then do
      bump src
      bump src
      pure ((),true)
    else pure ((),false)) fuel ()

/-- How far the suffixes of a type are read: the type so far, the levels taken, and whether the limit was reached. -/
structure Suffixes where
  completed : ℕ
  taken : ℤ
  limited : Bool

/-- One suffix, which wraps the type so far where there is a level for it. -/
def wrapSuffix (x : Suffixes) (tokens : Parsing Unit) (kind : NodeKind) : Parsing (Suffixes × Bool) := do
  let entered ← enterNesting deeplyNestedType
  if entered then do
    let marker ← precede x.completed
    tokens
    let completed ← complete marker kind
    pure (⟨completed,x.taken + 1,false⟩,true)
  else pure (⟨x.completed,x.taken,true⟩,false)

def parseTypeSuffix (leaveCoalesceToExpression : Bool) (x : Suffixes) : Parsing (Suffixes × Bool) := do
  let s ← get
  if atKind src s .question then
    if leaveCoalesceToExpression && leavesQuestionToExpression src s then pure (x,false) else wrapSuffix x (bump src) .optionalType
  else if atKind src s .openBracket && decide (peekKind src s 1 = .closeBracket) then
    wrapSuffix x (do bump src; bump src) .arrayType
  else pure (x,false)

def parseTypeSuffixes (named : ℕ) (leaveCoalesceToExpression : Bool) : Parsing (Option ℕ) := do
  let x ← repeating (parseTypeSuffix src leaveCoalesceToExpression) fuel ⟨named,0,false⟩
  leaveNestingTimes x.taken
  if x.limited then do
    skipTypeSuffixes src fuel leaveCoalesceToExpression
    pure none
  else pure (some x.completed)

/-! ### Headers -/

/-- Whether only blanks stand before an offset on its line, and fewer than `column` of them but for the last. -/
def lineStartWithin (offset column : ℕ) : ℕ → Bool
  | 0 => true
  | start + 1 =>
    let before := src.input.bytes.getD start 0
    if before = '\n'.toNat || before = '\r'.toNat then true
    else if (before ≠ ' '.toNat && before ≠ '\t'.toNat) || column ≤ offset - (start + 1) then false
    else lineStartWithin offset column start

def atLineStartWithinFunction (s : Parser) : Bool :=
  let offset := (token src s.cursor).offset
  lineStartWithin src offset s.functionColumn offset

def isModifier : SyntaxKind → Bool
  | .publicKeyword | .privateKeyword | .protectedKeyword | .exportKeyword | .abstractKeyword | .overrideKeyword | .finalKeyword | .sealedKeyword
  | .weakKeyword | .constKeyword | .noreturnKeyword | .staticKeyword | .lazyKeyword | .mutatingKeyword => true
  | _ => false

def modifierAt (s : Parser) (offset : ℕ) : Bool :=
  if peekIsContextual src s offset "shared" then
    let next := peekKind src s (offset + 1)
    let after := peekKind src s (offset + 2)
    isKeyword next || (next = .identifier && after ≠ .semicolon && after ≠ .equals)
  else isModifier (peekKind src s offset)

/-- How many modifiers stand at the cursor. -/
def modifierCount (s : Parser) : ℕ → ℕ → ℕ
  | 0, count => count
  | left + 1, count => if modifierAt src s count then modifierCount s left (count + 1) else count

def modifiersAhead (s : Parser) : ℕ := modifierCount src s src.lexedTokens.length 0

def atPrimitiveBinding (s : Parser) (ahead : ℕ) : Bool :=
  let named := peekKind src s (ahead + 1)
  let following := peekKind src s (ahead + 2)
  peekIsContextual src s ahead "primitive" && (named = .identifier || isPrimitiveTypeKeyword named) &&
    (following = .openBrace || following = .implementsKeyword)

def atDeclarationNoBodyHolds (s : Parser) : Bool :=
  atKind src s .importKeyword || atKind src s .externalKeyword ||
    ((peekKind src s 1 = .stringLiteral || peekKind src s 1 = .interpolatedStringStart) && atContextual src s "test") ||
    atPrimitiveBinding src s 0 ||
    match peekKind src s (modifiersAhead src s) with
    | .structKeyword | .classKeyword | .interfaceKeyword | .enumKeyword | .externalKeyword => true
    | _ => false

def atConstructorOrDestructorHeader (s : Parser) : Bool :=
  let kind := peekKind src s (modifiersAhead src s)
  let next := peekKind src s (modifiersAhead src s + 1)
  (kind = .constructorKeyword || kind = .destructorKeyword) && (next = .openParenthesis || next = .less)

def parseTypeParameter : Parsing Unit := do
  let marker ← start
  let s ← get
  bif atContextual src s "shared" && decide (peekKind src s 1 = .identifier) then bumpAs src .sharedKeyword else nullSlot
  expect src .identifier "Expected the type parameter's name. For example, write '<T>'."
  let s ← get
  bif atKind src s .colon then do
    let bounds ← start
    bump src
    let list ← start
    let _ ← parseNamedType src fuel parseType
      "Expected a bound after ':', the interface the type parameter must implement. For example, write '<T: Shape>'."
    let _ ← repeating (fun _ => do
      let s ← get
      if atKind src s .plus then do
        bump src
        let _ ← parseNamedType src fuel parseType "Expected another interface after '+'. For example, write '<T: Shape + Named>'."
        pure ((),true)
      else pure ((),false)) fuel ()
    let _ ← complete list .list
    let _ ← complete bounds .boundsClause
    pure ()
  else nullSlot
  let _ ← complete marker .typeParameter
  pure ()

def parseTypeParameterList : Parsing Unit := do
  let marker ← start
  expectOpeningAngle src "Expected '<' to begin the type parameters."
  let parameters ← start
  let s ← get
  if atSharedFunctionType src s || (atKind src s .openParenthesis && atArrowAfterParentheses src s 0) then do
    let _ ← complete parameters .list
    let _ ← parseFunctionType src fuel parseType
    expectClosingAngle src "Expected '>' to close the type parameters."
    let _ ← complete marker .typeParameterList
    pure ()
  else do
    bif !atClosingAngle src s && !atEnd src s then do
      parseTypeParameter src fuel parseType
      parseRest src fuel (atClosingAngle src) (parseTypeParameter src fuel parseType)
    else pure ()
    let _ ← complete parameters .list
    nullSlot
    expectClosingAngle src "Expected '>' to close the type parameters."
    let _ ← complete marker .typeParameterList
    pure ()

def skipParenthesis (depth : ℤ) (kind : SyntaxKind) : (ℤ × Bool) × Bool :=
  let depth := if kind = .openParenthesis then depth + 1 else if kind = .closeParenthesis then depth - 1 else depth
  if depth = 0 then ((depth,true),false) else ((depth,false),true)

def skipBalancedParentheses : Parsing Bool := do
  let x ← repeating (fun x : ℤ × Bool => do
    let s ← get
    if atEnd src s then pure (x,false)
    else do
      bump src
      pure (skipParenthesis x.1 (currentKind src s))) fuel (0,false)
  pure x.2

def skipModifiers : Parsing Unit :=
  repeating (fun _ => do
    let s ← get
    if modifierAt src s 0 then do
      bump src
      pure ((),true)
    else pure ((),false)) fuel ()

def atSharedFunctionTyped : Parsing Bool := do
  let s ← get
  if !atSharedFunctionType src s then pure false
  else do
    let restore ← mark
    let _ ← parseType ""
    let s ← get
    rewind restore
    pure (atKind src s .identifier)

/-- Type parameters, where there are any, and whether they were read without a report. -/
def parseHeaderParameters (restore : ParserMark) : Parsing Bool := do
  let s ← get
  if atKind src s .less then do
    parseTypeParameterList src fuel parseType
    let s ← get
    pure (clean s restore)
  else pure true

def looksLikeFunctionDeclaration (allowBodiless : Bool) : Parsing Bool := do
  let restore ← mark
  skipModifiers src fuel
  let s ← get
  let typed ← bif atKind src s .identifier then atSharedFunctionTyped src parseType else pure true
  let result ← bif typed then pure false
    else do
      bump src
      let headerOk ← parseHeaderParameters src fuel parseType restore
      let s ← get
      let closed ← bif headerOk && atKind src s .openParenthesis then skipBalancedParentheses src fuel else pure false
      let s ← get
      pure (closed && (atKind src s .arrow || atKind src s .openBrace || atKind src s .throwsKeyword || (allowBodiless && atKind src s .semicolon)))
  bif result then pure () else carryDepthLimits restore
  rewind restore
  pure result

def looksLikeKeywordNamedMethod : Parsing Bool := do
  let restore ← mark
  skipModifiers src fuel
  let s ← get
  let result ← bif isKeyword (currentKind src s) then do
      bump src
      let headerOk ← parseHeaderParameters src fuel parseType restore
      let s ← get
      pure (headerOk && atKind src s .openParenthesis)
    else pure false
  bif result then pure () else carryDepthLimits restore
  rewind restore
  pure result

def atHeaderLine : Parsing Bool := do
  let s ← get
  if !atLineStartWithinFunction src s then pure false
  else if atDeclarationNoBodyHolds src s then pure true
  else do
    let declares ← looksLikeFunctionDeclaration src fuel parseType false
    if declares then pure true else pure (atConstructorOrDestructorHeader src s)

/-! ### Abandoned types -/

def endsAbandonedTokens (s : Parser) (kind : SyntaxKind) (openConditionals : ℤ) : Bool :=
  match kind with
  | .closeParenthesis | .closeBracket | .comma | .interpolatedStringMiddle | .interpolatedStringEnd => true
  | .colon => openConditionals = 0
  | .arrow => s.parsingArmLabels
  | _ => false

def startsConditionalBranch (s : Parser) : Bool := canStartExpression (peekKind src s 1) || decide (peekKind src s 1 = .openBrace)

structure Skipping where
  depth : ℤ
  openConditionals : ℤ
  braces : ℤ
  bracketsInBraces : ℤ

def Skipping.opened (x : Skipping) (opens : Bool) : Skipping := if opens then { x with openConditionals := x.openConditionals + 1 } else x

def skipInBraces (x : Skipping) (kind : SyntaxKind) : Parsing (Skipping × Bool) :=
  if kind = .openParenthesis ∨ kind = .openBracket then do
    bump src
    pure ({ x with bracketsInBraces := x.bracketsInBraces + 1 },true)
  else if kind = .closeParenthesis ∨ kind = .closeBracket then
    if x.bracketsInBraces = 0 then pure ({ x with braces := 0 },true)
    else do
      bump src
      pure ({ x with bracketsInBraces := x.bracketsInBraces - 1 },true)
  else do
    bump src
    pure ({ x with braces := if kind = .openBrace then x.braces + 1 else if kind = .closeBrace then x.braces - 1 else x.braces },true)

def skipOutsideBraces (x : Skipping) (kind : SyntaxKind) : Parsing (Skipping × Bool) := do
  let s ← get
  if kind = .openBrace then do
    bump src
    pure ({ x with braces := x.braces + 1, bracketsInBraces := 0 },true)
  else if kind = .semicolon ∨ kind = .closeBrace then pure (x,false)
  else if decide (x.depth = 0) && endsAbandonedTokens s kind x.openConditionals then pure (x,false)
  else if kind = .openParenthesis ∨ kind = .openBracket ∨ kind = .interpolatedStringStart then do
    bump src
    pure ({ x with depth := x.depth + 1 },true)
  else if kind = .closeParenthesis ∨ kind = .closeBracket ∨ kind = .interpolatedStringEnd then do
    bump src
    pure ({ x with depth := x.depth - 1 },true)
  else if kind = .question then
    if decide (x.depth = 0) && atQuestionPair src s then do
      bump src
      bump src
      pure (x,true)
    else do
      bump src
      pure (x.opened (decide (x.depth = 0) && !atSafeSubscript src s && startsConditionalBranch src s),true)
  else do
    bump src
    pure ({ x with openConditionals := if kind = .colon ∧ x.depth = 0 then x.openConditionals - 1 else x.openConditionals },true)

def skipAbandonedTokens : Parsing Unit := do
  let _ ← repeating (fun x => do
    let s ← get
    if atEnd src s then pure (x,false)
    else do
      let header ← atHeaderLine src fuel parseType
      if header then pure (x,false)
      else do
        let s ← get
        if x.braces > 0 then skipInBraces src x (currentKind src s) else skipOutsideBraces src x (currentKind src s)) fuel ⟨0,0,0,0⟩
  pure ()

def abandoned (kind : NodeKind) : Parsing ℕ := do
  let marker ← start
  let skipped ← start
  skipAbandonedTokens src fuel parseType
  let _ ← complete skipped .list
  complete marker kind

def abandonedDeepType (stop : ℕ) : Parsing ℕ := do
  let marker ← start
  let first ← get
  let skipped ← start
  let _ ← repeating (fun _ => do
    let s ← get
    if s.cursor < stop ∧ atEnd src s = false then do
      bump src
      pure ((),true)
    else pure ((),false)) fuel ()
  let _ ← complete skipped .list
  reportLimitOnce deeplyNestedType (token src first.cursor).offset
  complete marker .errorType

def foreignArrow (first stop : ℕ) : ℕ → ℕ → ℤ → Option ℕ
  | 0, _, _ => none
  | left + 1, i, depth =>
    if stop ≤ i then none
    else
      let kind := (token src i).kind
      if kind = .openParenthesis ∨ kind = .openBracket then foreignArrow first stop left (i + 1) (depth + 1)
      else if kind = .closeParenthesis ∨ kind = .closeBracket then foreignArrow first stop left (i + 1) (depth - 1)
      else if kind = .arrow ∧ depth = 0 ∧ first < i ∧ (token src (i - 1)).kind ≠ .closeParenthesis then some i
      else foreignArrow first stop left (i + 1) depth

def abandonedAtStart : Parsing ℕ := do
  let restore ← mark
  let first ← get
  let node ← abandoned src fuel parseType .errorType
  let s ← get
  match foreignArrow src first.cursor s.cursor (s.cursor - first.cursor) first.cursor 0 with
  | some i => do
    rewind restore
    abandonedDeepType src fuel i
  | none => pure node

def parseTypeAndSuffixes (missingMessage : String) (leaveCoalesceToExpression : Bool) : Parsing ℕ := do
  let entered ← enterNesting deeplyNestedType
  if !entered then abandonedAtStart src fuel parseType
  else do
    let restore ← mark
    let head ← parseTypeHead src fuel parseType missingMessage
    let completed ← parseTypeSuffixes src fuel head leaveCoalesceToExpression
    leaveNestingTimes 1
    match completed with
    | some completed => pure completed
    | none => do
      let s ← get
      rewind restore
      abandonedDeepType src fuel s.cursor

end

/-- A type. `fuel` bounds how deep types are read inside one another and how often a loop goes round. -/
def parseType : ℕ → String → Parsing ℕ
  | 0, _ => failure
  | fuel + 1, missingMessage => parseTypeAndSuffixes src fuel (parseType fuel) missingMessage false

/-! ### Looking ahead -/

variable (fuel : ℕ)

def tryParseGenericSuffix : Parsing Bool := do
  let restore ← mark
  parseTypeArgumentList src fuel (parseType src fuel)
  let s ← get
  if clean s restore && (atKind src s .openParenthesis || atKind src s .dot) then pure true
  else do
    rewind restore
    pure false

def isTypeOrGroupStart (kind : SyntaxKind) : Bool := isTypeStart kind || kind = .openParenthesis

def atVariableName (s : Parser) : Bool :=
  (atKind src s .identifier || isKeyword (currentKind src s)) && (peekKind src s 1 = .equals || peekKind src s 1 = .semicolon)

def atTypedVariableDeclaration : Parsing Bool := do
  let s ← get
  if !isTypeOrGroupStart (currentKind src s) then pure false
  else do
    let restore ← mark
    let _ ← parseType src fuel ""
    let s ← get
    rewind restore
    pure (atVariableName src s || (atEnd src s && decide (restore.position + 1 < s.cursor)))

def literalTypeName : SyntaxKind → String
  | .intLiteral => "int"
  | .longLiteral => "long"
  | .floatLiteral => "float"
  | .doubleLiteral => "double"
  | .stringLiteral => "string"
  | .charLiteral => "char"
  | .trueKeyword | .falseKeyword => "bool"
  | _ => ""

def variableMessage (name typeText value : List ℕ) : List ℕ :=
  if name = [] then utf8 "A variable cannot be declared outside a function. Move the declaration into a function."
  else
    let message := utf8 "'" ++ name ++ utf8 "' is a variable, and a variable cannot be declared outside a function. Move '" ++ name ++
      utf8 "' into a function, or write a function that returns its value"
    if typeText = [] ∨ value = [] then message ++ utf8 "."
    else message ++ utf8 ", for example '" ++ name ++ utf8 "() -> " ++ typeText ++ utf8 " \x7b return " ++ value ++ utf8 "; \x7d'."

def messageAt (s : Parser) (typeText : List ℕ) : List ℕ :=
  if !atKind src s .identifier then variableMessage [] typeText []
  else
    let given := peekKind src s 1 = .equals && peekKind src s 3 = .semicolon
    let next := token src (s.cursor + 2)
    variableMessage (currentText src s) (if given && typeText = [] then utf8 (literalTypeName (peekKind src s 2)) else typeText)
      (if given then substring src next.offset next.stop else [])

def atBareName (s : Parser) : Bool := atKind src s .identifier && (peekKind src s 1 = .equals || peekKind src s 1 = .semicolon)

def topLevelVariableMessage : Parsing (List ℕ) := do
  let restore ← mark
  let s ← get
  bif atKind src s .letKeyword || atKind src s .constKeyword then bump src else pure ()
  let s ← get
  let typeText ← bif !atBareName src s && isTypeOrGroupStart (currentKind src s) then do
      let _ ← parseType src fuel ""
      let after ← get
      pure (substring src (token src s.cursor).offset after.contentEnd)
    else pure []
  let s ← get
  rewind restore
  pure (messageAt src s typeText)

end

/-! ### What a parse keeps -/

structure Base where
  events : ℕ
  diagnostics : ℕ
  depthLimits : ℕ
  recoveries : ℕ
  refusedNames : ℕ

def Below (n : Base) (s : Parser) : Prop :=
  n.events ≤ s.events.length ∧ n.diagnostics ≤ s.diagnostics.length ∧ n.depthLimits ≤ s.depthLimits.length ∧ n.recoveries ≤ s.recoveries.length ∧
    n.refusedNames ≤ s.refusedNames.length

def fixed (n : Base) (s : Parser) :=
  (s.events.take n.events,s.diagnostics.take n.diagnostics,s.depthLimits.take n.depthLimits,s.recoveries.take n.recoveries,
    s.refusedNames.take n.refusedNames,s.openLimitScopes,s.openBlocks,s.parsingArmLabels)

/-- A parse from one depth of nesting to another that keeps what is fixed, and whose result is as `Q` says. -/
def Keeps {α : Type} (n : Base) (d : ℤ) (m : Parsing α) (d' : α → ℤ) (Q : α → Prop) : Prop :=
  ∀ s a s', Below n s → s.nestingDepth = d → m s = some (a,s') → Below n s' ∧ fixed n s' = fixed n s ∧ s'.nestingDepth = d' a ∧ Q a

/-- A parse that gives back every level of nesting it takes. -/
def Balanced {α : Type} (n : Base) (m : Parsing α) (Q : α → Prop) : Prop := ∀ d, Keeps n d m (fun _ => d) Q

section
variable {α β σ : Type} {n : Base} {d : ℤ} {d' : α → ℤ} {d'' : β → ℤ} {Q : α → Prop} {R : β → Prop} {m m' : Parsing α} {f : α → Parsing β}

theorem bind_some {s : Parser} {b : β} {s' : Parser} (h : (m >>= f) s = some (b,s')) : ∃ a s₁, m s = some (a,s₁) ∧ f a s₁ = some (b,s') := by
  cases hm : m s with
  | none =>
    have hnone : (m >>= f) s = none := by simp [bind,StateT.bind,hm]
    rw [hnone] at h
    cases h
  | some r =>
    have hsome : (m >>= f) s = f r.1 r.2 := by simp [bind,StateT.bind,hm]
    exact ⟨r.1,r.2,rfl,hsome ▸ h⟩

theorem Keeps.bind (hm : Keeps n d m d' Q) (hf : ∀ a, Q a → Keeps n (d' a) (f a) d'' R) : Keeps n d (m >>= f) d'' R := by
  intro s b s' hs hd hrun
  obtain ⟨a,s₁,hfirst,hnext⟩ := bind_some hrun
  obtain ⟨hbelow,hfixed,hdepth,hq⟩ := hm s a s₁ hs hd hfirst
  obtain ⟨hbelow',hfixed',hdepth',hr⟩ := hf a hq s₁ b s' hbelow hdepth hnext
  exact ⟨hbelow',hfixed'.trans hfixed,hdepth',hr⟩

theorem Keeps.pure {a : α} (hd : d = d' a) (hq : Q a) : Keeps n d (pure a : Parsing α) d' Q := by
  intro s b s' hs hs' hrun
  cases hrun
  exact ⟨hs,rfl,hs'.trans hd,hq⟩

theorem Keeps.get {g : Parser → Parsing β} (h : ∀ s, Keeps n d (g s) d'' R) : Keeps n d (get >>= g) d'' R :=
  fun s b s' hs hd hrun => h s s b s' hs hd hrun

theorem Balanced.bind (hm : Balanced n m Q) (hf : ∀ a, Q a → Balanced n (f a) R) : Balanced n (m >>= f) R :=
  fun d => (hm d).bind fun a ha => hf a ha d

theorem Balanced.get {g : Parser → Parsing β} (h : ∀ s, Balanced n (g s) R) : Balanced n (get >>= g) R := fun d => Keeps.get fun s => h s d

theorem Balanced.pure {a : α} (h : Q a) : Balanced n (pure a : Parsing α) Q := fun _ => Keeps.pure rfl h

theorem Balanced.cond {c : Bool} (h : Balanced n m Q) (h' : Balanced n m' Q) : Balanced n (bif c then m else m') Q := by
  cases c
  · exact h'
  · exact h

theorem Balanced.ite {p : Prop} [Decidable p] (h : Balanced n m Q) (h' : Balanced n m' Q) : Balanced n (if p then m else m') Q := by
  split
  · exact h
  · exact h'

theorem Balanced.either {c : Bool} (h : Balanced n m fun _ => True) (h' : Balanced n m' fun _ => True) (hf : ∀ a, Balanced n (f a) R) :
    Balanced n ((bif c then m else m') >>= f) R :=
  (Balanced.cond h h').bind fun a _ => hf a

theorem Balanced.modify {g : Parser → Parser} (h : ∀ s, Below n s → Below n (g s) ∧ fixed n (g s) = fixed n s ∧ (g s).nestingDepth = s.nestingDepth) :
    Balanced n (modify g : Parsing Unit) fun _ => True := by
  intro d s a s' hs hd hrun
  cases hrun
  obtain ⟨hbelow,hfixed,hdepth⟩ := h s hs
  exact ⟨hbelow,hfixed,hdepth.trans hd,trivial⟩

theorem Keeps.repeating {body : σ → Parsing (σ × Bool)} (depth : σ → ℤ) (I : σ → Prop)
    (h : ∀ x, I x → Keeps n (depth x) (body x) (fun r => depth r.1) fun r => I r.1) :
    ∀ (fuel : ℕ) (x : σ), I x → Keeps n (depth x) (repeating body fuel x) depth I := by
  intro fuel
  induction fuel with
  | zero => intro x _ s a s' _ _ hrun; cases hrun
  | succ fuel ih =>
    intro x hx
    refine (h x hx).bind fun r hr => ?_
    obtain ⟨y,more⟩ := r
    cases more
    · exact Keeps.pure rfl hr
    · exact ih y hr

theorem Balanced.repeating {body : σ → Parsing (σ × Bool)} {I : σ → Prop} (h : ∀ x, I x → Balanced n (body x) fun r => I r.1) (fuel : ℕ) (x : σ)
    (hx : I x) : Balanced n (repeating body fuel x) I := fun d => Keeps.repeating (fun _ => d) I (fun y hy => h y hy d) fuel x hx

theorem Balanced.loop {step : Parsing (Unit × Bool)} (h : Balanced n step fun _ => True) (fuel : ℕ) :
    Balanced n (Speculation.repeating (fun _ => step) fuel ()) fun _ => True :=
  Balanced.repeating (fun _ _ => h) fuel () trivial

end

/-! ### The steps of the parser -/

/-- What a mark holds is no less than what stood at an earlier one. -/
def Marks (n : Base) (restore : ParserMark) : Prop :=
  n.events ≤ restore.eventCount ∧ n.diagnostics ≤ restore.diagnosticCount ∧ n.depthLimits ≤ restore.depthLimitCount ∧
    n.recoveries ≤ restore.recoveryCount ∧ n.refusedNames ≤ restore.refusedNameCount

section
variable {n : Base} {src : Source}

theorem push_balanced (happening : Happening) : Balanced n (push happening) fun _ => True :=
  Balanced.modify fun s hs => by
    obtain ⟨h₁,h₂⟩ := hs
    exact ⟨⟨by rw [List.length_append]; omega,h₂⟩,by simp only [fixed,List.take_append_of_le_length h₁],rfl⟩

theorem start_balanced : Balanced n start fun marker => n.events ≤ marker := by
  intro d s a s' hs hd hrun
  cases hrun
  obtain ⟨h₁,h₂⟩ := hs
  exact ⟨⟨by simp only [List.length_append]; omega,h₂⟩,by simp only [fixed,List.take_append_of_le_length h₁],hd,h₁⟩

theorem rewrite_keeps {i k : ℕ} (events : List ParseEvent) (f : ParseEvent → ParseEvent) (h : k ≤ i) :
    (rewrite events i f).length = events.length ∧ (rewrite events i f).take k = events.take k := by
  unfold rewrite
  split
  · exact ⟨List.length_set,List.take_set_of_le h⟩
  · exact ⟨rfl,rfl⟩

theorem rewrite_balanced {i : ℕ} (f : Parser → ParseEvent → ParseEvent) (h : n.events ≤ i) :
    Balanced n (modify fun s => { s with events := rewrite s.events i (f s) } : Parsing Unit) fun _ => True :=
  Balanced.modify fun s hs => by
    obtain ⟨h₁,h₂⟩ := hs
    have hkeeps := rewrite_keeps s.events (f s) h
    exact ⟨⟨by rw [hkeeps.1]; exact h₁,h₂⟩,by simp only [fixed,hkeeps.2],rfl⟩

theorem complete_balanced {marker : ℕ} (kind : NodeKind) (h : n.events ≤ marker) : Balanced n (complete marker kind) fun node => n.events ≤ node :=
  (rewrite_balanced _ h).bind fun _ _ => (push_balanced _).bind fun _ _ => .pure h

theorem precede_balanced {completed : ℕ} (h : n.events ≤ completed) : Balanced n (precede completed) fun marker => n.events ≤ marker :=
  start_balanced.bind fun _ hmarker => (rewrite_balanced _ h).bind fun _ _ => .pure hmarker

theorem nullSlot_balanced : Balanced n nullSlot fun _ => True := push_balanced _

theorem cursor_balanced {g : Parser → Parser} (h : ∀ s, fixed n (g s) = fixed n s ∧ (g s).nestingDepth = s.nestingDepth ∧
    (g s).events = s.events ∧ (g s).diagnostics = s.diagnostics ∧ (g s).depthLimits = s.depthLimits ∧ (g s).recoveries = s.recoveries ∧
    (g s).refusedNames = s.refusedNames) : Balanced n (modify g : Parsing Unit) fun _ => True :=
  Balanced.modify fun s hs => by
    obtain ⟨hfixed,hdepth,he,hd,hl,hr,hn⟩ := h s
    exact ⟨by unfold Below at hs ⊢; rw [he,hd,hl,hr,hn]; exact hs,hfixed,hdepth⟩

theorem bumpAs_balanced (kind : SyntaxKind) : Balanced n (bumpAs src kind) fun _ => True :=
  Balanced.get fun _ => Balanced.ite (.pure trivial)
    ((push_balanced _).bind fun _ _ => cursor_balanced fun _ => ⟨rfl,rfl,rfl,rfl,rfl,rfl,rfl⟩)

theorem bump_balanced : Balanced n (bump src) fun _ => True := Balanced.get fun _ => bumpAs_balanced _

theorem bumpSplit_balanced (kind : SyntaxKind) : Balanced n (bumpSplit src kind) fun _ => True :=
  Balanced.get fun _ => (push_balanced _).bind fun _ _ => cursor_balanced fun _ => ⟨rfl,rfl,rfl,rfl,rfl,rfl,rfl⟩

theorem report_balanced (message : String) (start length : ℕ) : Balanced n (report message start length) fun _ => True :=
  Balanced.modify fun s hs => by
    obtain ⟨h₁,h₂,h₃⟩ := hs
    exact ⟨⟨h₁,by rw [List.length_append]; omega,h₃⟩,by simp only [fixed,List.take_append_of_le_length h₂],rfl⟩

theorem reading_balanced (answer : Except Stop Bool) : Balanced n (reading answer) fun _ => True := by
  intro d s a s' hs hd hrun
  unfold reading at hrun
  split at hrun
  · cases hrun
    exact ⟨hs,rfl,hd,trivial⟩
  · cases hrun

theorem reportMissing_balanced (message : String) : Balanced n (reportMissing src message) fun _ => True :=
  Balanced.get fun _ => Balanced.ite (.pure trivial) ((reading_balanced _).bind fun _ _ => Balanced.ite (.pure trivial)
    ((report_balanced _ _ _).bind fun _ _ => cursor_balanced fun _ => ⟨rfl,rfl,rfl,rfl,rfl,rfl,rfl⟩))

theorem missing_balanced (expected : SyntaxKind) (message : String) : Balanced n (missing src expected message) fun _ => True := by
  refine (push_balanced _).bind fun _ _ => Balanced.either (.pure trivial) (Balanced.modify fun s hs => ?_) fun _ =>
    reportMissing_balanced message
  obtain ⟨h₁,h₂,h₃,h₄,h₅⟩ := hs
  exact ⟨⟨h₁,h₂,h₃,by rw [List.length_append]; omega,h₅⟩,by simp only [fixed,List.take_append_of_le_length h₄],rfl⟩

theorem expect_balanced (kind : SyntaxKind) (message : String) : Balanced n (expect src kind message) fun _ => True :=
  Balanced.get fun _ => Balanced.ite bump_balanced (missing_balanced kind message)

theorem expectClosingAngle_balanced (message : String) : Balanced n (expectClosingAngle src message) fun _ => True :=
  Balanced.get fun _ => Balanced.ite bump_balanced (Balanced.ite (bumpSplit_balanced _) (missing_balanced _ message))

theorem expectOpeningAngle_balanced (message : String) : Balanced n (expectOpeningAngle src message) fun _ => True :=
  Balanced.get fun _ => Balanced.ite bump_balanced (Balanced.ite (bumpSplit_balanced _) (missing_balanced _ message))

theorem mark_balanced : Balanced n mark (Marks n) := by
  intro d s a s' hs hd hrun
  cases hrun
  exact ⟨hs,rfl,hd,hs⟩

theorem rewind_balanced {restore : ParserMark} (h : Marks n restore) : Balanced n (rewind restore) fun _ => True :=
  Balanced.modify fun s hs => by
    obtain ⟨h₁,h₂,h₃,h₄,h₅⟩ := h
    obtain ⟨k₁,k₂,k₃,k₄,k₅⟩ := hs
    refine ⟨⟨?_,?_,?_,?_,?_⟩,?_,rfl⟩
    · exact List.length_take ▸ le_min h₁ k₁
    · exact List.length_take ▸ le_min h₂ k₂
    · exact List.length_take ▸ le_min h₃ k₃
    · exact List.length_take ▸ le_min h₄ k₄
    · exact List.length_take ▸ le_min h₅ k₅
    · simp only [fixed,List.take_take,min_eq_left h₁,min_eq_left h₂,min_eq_left h₃,min_eq_left h₄,min_eq_left h₅]

theorem carryDepthLimits_balanced (restore : ParserMark) : Balanced n (carryDepthLimits restore) fun _ => True :=
  cursor_balanced fun _ => ⟨rfl,rfl,rfl,rfl,rfl,rfl,rfl⟩

theorem reportLimitOnce_balanced (message : String) (offset : ℕ) : Balanced n (reportLimitOnce message offset) fun _ => True :=
  Balanced.modify fun s hs => by
    obtain ⟨h₁,h₂,h₃,h₄⟩ := hs
    split
    · exact ⟨⟨h₁,h₂,h₃,h₄⟩,rfl,rfl⟩
    · exact ⟨⟨h₁,h₂,by rw [List.length_append]; omega,h₄⟩,by simp only [fixed,List.take_append_of_le_length h₃],rfl⟩

/-! ### Types -/

section
variable {fuel : ℕ} {parse : String → Parsing ℕ} (hparse : ∀ message, Balanced n (parse message) fun node => n.events ≤ node)
include hparse

omit hparse in
theorem parseRest_balanced {closes : Parser → Bool} {item : Parsing Unit} (h : Balanced n item fun _ => True) :
    Balanced n (parseRest src fuel closes item) fun _ => True := by
  unfold parseRest
  refine Balanced.loop (Balanced.get fun s => Balanced.ite ?_ (.pure trivial)) fuel
  exact bump_balanced.bind fun _ _ => Balanced.get fun _ => Balanced.ite (.pure trivial) (h.bind fun _ _ => .pure trivial)

theorem parseTypeArgumentList_balanced : Balanced n (parseTypeArgumentList src fuel parse) fun _ => True := by
  refine start_balanced.bind fun marker hmarker => (expectOpeningAngle_balanced _).bind fun _ _ => start_balanced.bind fun list hlist => ?_
  refine Balanced.get fun s => Balanced.either ?_ (.pure trivial) fun _ => ?_
  · exact (hparse _).bind fun _ _ => parseRest_balanced ((hparse _).bind fun _ _ => .pure trivial)
  · exact (complete_balanced _ hlist).bind fun _ _ => (expectClosingAngle_balanced _).bind fun _ _ =>
      (complete_balanced _ hmarker).bind fun _ _ => .pure trivial

theorem tryParseTypeArgumentList_balanced : Balanced n (tryParseTypeArgumentList src fuel parse) fun _ => True :=
  mark_balanced.bind fun restore hrestore => (parseTypeArgumentList_balanced hparse).bind fun _ _ => Balanced.get fun _ =>
    Balanced.ite (.pure trivial) ((carryDepthLimits_balanced restore).bind fun _ _ => (rewind_balanced hrestore).bind fun _ _ => .pure trivial)

theorem parseNamedType_balanced (message : String) : Balanced n (parseNamedType src fuel parse message) fun node => n.events ≤ node := by
  refine start_balanced.bind fun marker hmarker => Balanced.get fun s => Balanced.either ?_ nullSlot_balanced fun _ => ?_
  · exact start_balanced.bind fun qualifier hqualifier => bump_balanced.bind fun _ _ => bump_balanced.bind fun _ _ =>
      (complete_balanced _ hqualifier).bind fun _ _ => .pure trivial
  refine Balanced.get fun s => Balanced.either bump_balanced (missing_balanced _ _) fun _ => ?_
  refine Balanced.get fun s => Balanced.either ?_ nullSlot_balanced fun _ => complete_balanced _ hmarker
  exact (tryParseTypeArgumentList_balanced hparse).bind fun _ _ => Balanced.ite (.pure trivial) nullSlot_balanced

theorem parseThrowsClause_balanced : Balanced n (parseThrowsClause src fuel parse) fun _ => True := by
  refine start_balanced.bind fun marker hmarker => bump_balanced.bind fun _ _ => start_balanced.bind fun types htypes => ?_
  refine Balanced.get fun s => Balanced.either ?_ (.pure trivial) fun _ => ?_
  · exact (parseNamedType_balanced hparse _).bind fun _ _ => parseRest_balanced ((parseNamedType_balanced hparse _).bind fun _ _ => .pure trivial)
  · exact (complete_balanced _ htypes).bind fun _ _ => (complete_balanced _ hmarker).bind fun _ _ => .pure trivial

theorem parseFunctionType_balanced : Balanced n (parseFunctionType src fuel parse) fun node => n.events ≤ node := by
  refine start_balanced.bind fun marker hmarker => Balanced.get fun s => Balanced.either (bumpAs_balanced _) nullSlot_balanced fun _ => ?_
  refine bump_balanced.bind fun _ _ => start_balanced.bind fun list hlist => ?_
  refine Balanced.get fun s => Balanced.either ?_ (.pure trivial) fun _ => ?_
  · exact (hparse _).bind fun _ _ => parseRest_balanced ((hparse _).bind fun _ _ => .pure trivial)
  refine (complete_balanced _ hlist).bind fun _ _ => (expect_balanced _ _).bind fun _ _ => (expect_balanced _ _).bind fun _ _ =>
    (hparse _).bind fun _ _ => ?_
  exact Balanced.get fun s => Balanced.either (parseThrowsClause_balanced hparse) nullSlot_balanced fun _ =>
    complete_balanced _ hmarker

theorem parseParenthesizedType_balanced : Balanced n (parseParenthesizedType src parse) fun node => n.events ≤ node :=
  start_balanced.bind fun _ hmarker => bump_balanced.bind fun _ _ => (hparse _).bind fun _ _ => (expect_balanced _ _).bind fun _ _ =>
    complete_balanced _ hmarker

theorem parseTypeHead_balanced (message : String) : Balanced n (parseTypeHead src fuel parse message) fun node => n.events ≤ node :=
  Balanced.get fun _ => Balanced.ite (parseFunctionType_balanced hparse) (Balanced.ite
    (Balanced.ite (parseFunctionType_balanced hparse) (parseParenthesizedType_balanced hparse)) (parseNamedType_balanced hparse message))

omit hparse in
theorem skipTypeSuffixes_balanced (leave : Bool) : Balanced n (skipTypeSuffixes src fuel leave) fun _ => True := by
  unfold skipTypeSuffixes
  refine Balanced.loop (Balanced.get fun s => Balanced.ite ?_ (Balanced.ite ?_ (.pure trivial))) fuel
  · exact bump_balanced.bind fun _ _ => .pure trivial
  · exact bump_balanced.bind fun _ _ => bump_balanced.bind fun _ _ => .pure trivial

omit hparse in
theorem enterNesting_keeps (message : String) (d : ℤ) : Keeps n d (enterNesting message) (fun entered => if entered then d + 1 else d) fun _ => True := by
  refine Keeps.get fun s => ?_
  intro s₁ a s' hs hd hrun
  split at hrun
  · exact ((reportLimitOnce_balanced message _).bind fun _ _ => Balanced.pure (Q := fun entered => entered = false) rfl) d s₁ a s' hs hd hrun
      |>.imp id fun h => ⟨h.1,by rw [h.2.2]; exact h.2.1,trivial⟩
  · cases hrun
    exact ⟨hs,rfl,by simp [hd],trivial⟩

omit hparse in
theorem wrapSuffix_keeps {x : Suffixes} {tokens : Parsing Unit} (d : ℤ) (kind : NodeKind) (hx : n.events ≤ x.completed)
    (htokens : Balanced n tokens fun _ => True) :
    Keeps n (d + x.taken) (wrapSuffix x tokens kind) (fun r => d + r.1.taken) fun r => n.events ≤ r.1.completed := by
  refine (enterNesting_keeps deeplyNestedType _).bind fun entered _ => ?_
  cases entered
  · exact Keeps.pure rfl hx
  · refine Keeps.bind (precede_balanced hx _) fun marker hmarker => Keeps.bind (htokens _) fun _ _ =>
      Keeps.bind (complete_balanced kind hmarker _) fun completed hcompleted => ?_
    exact Keeps.pure (by simp only [if_true]; omega) hcompleted

omit hparse in
theorem leaveNestingTimes_keeps (d count : ℤ) : Keeps n d (leaveNestingTimes count) (fun _ => d - count) fun _ => True := by
  intro s a s' hs hd hrun
  cases hrun
  exact ⟨hs,rfl,by simp only [hd],trivial⟩

omit hparse in
theorem parseTypeSuffix_keeps {x : Suffixes} (d : ℤ) (leave : Bool) (hx : n.events ≤ x.completed) :
    Keeps n (d + x.taken) (parseTypeSuffix src leave x) (fun r => d + r.1.taken) fun r => n.events ≤ r.1.completed := by
  refine Keeps.get fun s => ?_
  split
  · split
    · exact Keeps.pure rfl hx
    · exact wrapSuffix_keeps d _ hx bump_balanced
  · split
    · exact wrapSuffix_keeps d _ hx (bump_balanced.bind fun _ _ => bump_balanced)
    · exact Keeps.pure rfl hx

omit hparse in
theorem parseTypeSuffixes_balanced {named : ℕ} (leave : Bool) (h : n.events ≤ named) :
    Balanced n (parseTypeSuffixes src fuel named leave) fun completed => ∀ node, completed = some node → n.events ≤ node := by
  intro d
  have hbody : ∀ x : Suffixes, n.events ≤ x.completed →
      Keeps n (d + x.taken) (parseTypeSuffix src leave x) (fun r => d + r.1.taken) fun r => n.events ≤ r.1.completed :=
    fun _ hx => parseTypeSuffix_keeps d leave hx
  have hloop := Keeps.repeating (fun x : Suffixes => d + x.taken) (fun x => n.events ≤ x.completed) hbody fuel (Suffixes.mk named 0 false) h
  simp only [add_zero] at hloop
  refine Keeps.bind hloop fun x hx => Keeps.bind (leaveNestingTimes_keeps _ _) fun _ _ => ?_
  rw [add_sub_cancel_right]
  split
  · exact ((skipTypeSuffixes_balanced leave).bind fun _ _ => .pure fun _ h => by cases h) d
  · exact Keeps.pure rfl fun _ h => by cases h; exact hx

/-! ### Headers -/

theorem parseTypeParameter_balanced : Balanced n (parseTypeParameter src fuel parse) fun _ => True := by
  refine start_balanced.bind fun marker hmarker => Balanced.get fun s => Balanced.either (bumpAs_balanced _) nullSlot_balanced fun _ => ?_
  refine (expect_balanced _ _).bind fun _ _ => Balanced.get fun s => Balanced.either ?_ nullSlot_balanced fun _ =>
    (complete_balanced _ hmarker).bind fun _ _ => .pure trivial
  refine start_balanced.bind fun bounds hbounds => bump_balanced.bind fun _ _ => start_balanced.bind fun list hlist => ?_
  refine (parseNamedType_balanced hparse _).bind fun _ _ => Balanced.bind (Balanced.loop ?_ fuel) fun _ _ => ?_
  · refine Balanced.get fun s => Balanced.ite ?_ (.pure trivial)
    exact bump_balanced.bind fun _ _ => (parseNamedType_balanced hparse _).bind fun _ _ => .pure trivial
  · exact (complete_balanced _ hlist).bind fun _ _ => (complete_balanced _ hbounds).bind fun _ _ => .pure trivial

theorem parseTypeParameterList_balanced : Balanced n (parseTypeParameterList src fuel parse) fun _ => True := by
  refine start_balanced.bind fun marker hmarker => (expectOpeningAngle_balanced _).bind fun _ _ => start_balanced.bind fun list hlist => ?_
  refine Balanced.get fun s => Balanced.ite ?_ ?_
  · exact (complete_balanced _ hlist).bind fun _ _ => (parseFunctionType_balanced hparse).bind fun _ _ =>
      (expectClosingAngle_balanced _).bind fun _ _ => (complete_balanced _ hmarker).bind fun _ _ => .pure trivial
  · refine Balanced.either ?_ (.pure trivial) fun _ => (complete_balanced _ hlist).bind fun _ _ => nullSlot_balanced.bind fun _ _ =>
      (expectClosingAngle_balanced _).bind fun _ _ => (complete_balanced _ hmarker).bind fun _ _ => .pure trivial
    exact (parseTypeParameter_balanced hparse).bind fun _ _ => parseRest_balanced (parseTypeParameter_balanced hparse)

omit hparse in
theorem skipBalancedParentheses_balanced : Balanced n (skipBalancedParentheses src fuel) fun _ => True := by
  refine Balanced.bind (Balanced.repeating (I := fun _ => True) (fun x _ => ?_) fuel _ trivial) fun _ _ => .pure trivial
  exact Balanced.get fun s => Balanced.ite (.pure trivial) (bump_balanced.bind fun _ _ => .pure trivial)

omit hparse in
theorem skipModifiers_balanced : Balanced n (skipModifiers src fuel) fun _ => True := by
  unfold skipModifiers
  refine Balanced.loop ?_ fuel
  exact Balanced.get fun s => Balanced.ite (bump_balanced.bind fun _ _ => .pure trivial) (.pure trivial)

theorem atSharedFunctionTyped_balanced : Balanced n (atSharedFunctionTyped src parse) fun _ => True :=
  Balanced.get fun _ => Balanced.ite (.pure trivial) (mark_balanced.bind fun _ hrestore => (hparse _).bind fun _ _ => Balanced.get fun _ =>
    (rewind_balanced hrestore).bind fun _ _ => .pure trivial)

theorem parseHeaderParameters_balanced (restore : ParserMark) : Balanced n (parseHeaderParameters src fuel parse restore) fun _ => True :=
  Balanced.get fun _ => Balanced.ite ((parseTypeParameterList_balanced hparse).bind fun _ _ => Balanced.get fun _ => .pure trivial) (.pure trivial)

theorem looksLikeFunctionDeclaration_balanced (allowBodiless : Bool) :
    Balanced n (looksLikeFunctionDeclaration src fuel parse allowBodiless) fun _ => True := by
  refine mark_balanced.bind fun restore hrestore => skipModifiers_balanced.bind fun _ _ => Balanced.get fun s => ?_
  refine Balanced.either (atSharedFunctionTyped_balanced hparse) (.pure trivial) fun typed => ?_
  refine Balanced.either (.pure trivial) ?_ fun result => Balanced.either (.pure trivial) (carryDepthLimits_balanced restore) fun _ =>
    (rewind_balanced hrestore).bind fun _ _ => .pure trivial
  refine bump_balanced.bind fun _ _ => (parseHeaderParameters_balanced hparse restore).bind fun _ _ => Balanced.get fun s => ?_
  exact Balanced.either skipBalancedParentheses_balanced (.pure trivial) fun _ => Balanced.get fun _ => .pure trivial

theorem looksLikeKeywordNamedMethod_balanced : Balanced n (looksLikeKeywordNamedMethod src fuel parse) fun _ => True := by
  refine mark_balanced.bind fun restore hrestore => skipModifiers_balanced.bind fun _ _ => Balanced.get fun s => ?_
  refine Balanced.either ?_ (.pure trivial) fun result => Balanced.either (.pure trivial) (carryDepthLimits_balanced restore) fun _ =>
    (rewind_balanced hrestore).bind fun _ _ => .pure trivial
  exact bump_balanced.bind fun _ _ => (parseHeaderParameters_balanced hparse restore).bind fun _ _ => Balanced.get fun _ => .pure trivial

theorem atHeaderLine_balanced : Balanced n (atHeaderLine src fuel parse) fun _ => True :=
  Balanced.get fun _ => Balanced.ite (.pure trivial) (Balanced.ite (.pure trivial)
    ((looksLikeFunctionDeclaration_balanced hparse false).bind fun _ _ => Balanced.ite (.pure trivial) (.pure trivial)))

/-! ### Abandoned types -/

omit hparse in
theorem skipInBraces_balanced (x : Skipping) (kind : SyntaxKind) : Balanced n (skipInBraces src x kind) fun _ => True :=
  have hbump : ∀ {r : Skipping × Bool}, Balanced n (do bump src; pure r) fun _ => True := bump_balanced.bind fun _ _ => .pure trivial
  Balanced.ite hbump (Balanced.ite (Balanced.ite (.pure trivial) hbump) hbump)

omit hparse in
theorem skipOutsideBraces_balanced (x : Skipping) (kind : SyntaxKind) : Balanced n (skipOutsideBraces src x kind) fun _ => True := by
  have hbump : ∀ {r : Skipping × Bool}, Balanced n (do bump src; pure r) fun _ => True := bump_balanced.bind fun _ _ => .pure trivial
  refine Balanced.get fun s => Balanced.ite hbump (Balanced.ite (.pure trivial) (Balanced.ite (.pure trivial) (Balanced.ite hbump
    (Balanced.ite hbump (Balanced.ite (Balanced.ite ?_ hbump) hbump)))))
  exact bump_balanced.bind fun _ _ => hbump

theorem skipAbandonedTokens_balanced : Balanced n (skipAbandonedTokens src fuel parse) fun _ => True := by
  refine Balanced.bind (Balanced.repeating (I := fun _ => True) (fun x _ => ?_) fuel _ trivial) fun _ _ => .pure trivial
  refine Balanced.get fun s => Balanced.ite (.pure trivial) ((atHeaderLine_balanced hparse).bind fun _ _ => Balanced.ite (.pure trivial) ?_)
  exact Balanced.get fun s => Balanced.ite (skipInBraces_balanced x _) (skipOutsideBraces_balanced x _)

theorem abandoned_balanced (kind : NodeKind) : Balanced n (abandoned src fuel parse kind) fun node => n.events ≤ node :=
  start_balanced.bind fun _ hmarker => start_balanced.bind fun _ hskipped => (skipAbandonedTokens_balanced hparse).bind fun _ _ =>
    (complete_balanced _ hskipped).bind fun _ _ => complete_balanced _ hmarker

omit hparse in
theorem abandonedDeepType_balanced (stop : ℕ) : Balanced n (abandonedDeepType src fuel stop) fun node => n.events ≤ node := by
  refine start_balanced.bind fun marker hmarker => Balanced.get fun first => start_balanced.bind fun skipped hskipped =>
    Balanced.bind (Balanced.loop ?_ fuel) fun _ _ => ?_
  · exact Balanced.get fun s => Balanced.ite (bump_balanced.bind fun _ _ => .pure trivial) (.pure trivial)
  · exact (complete_balanced _ hskipped).bind fun _ _ => (reportLimitOnce_balanced _ _).bind fun _ _ => complete_balanced _ hmarker

theorem abandonedAtStart_balanced : Balanced n (abandonedAtStart src fuel parse) fun node => n.events ≤ node := by
  refine mark_balanced.bind fun restore hrestore => Balanced.get fun first => (abandoned_balanced hparse _).bind fun node hnode => Balanced.get fun s => ?_
  split
  · exact (rewind_balanced hrestore).bind fun _ _ => abandonedDeepType_balanced _
  · exact .pure hnode

theorem parseTypeAndSuffixes_balanced (message : String) (leave : Bool) :
    Balanced n (parseTypeAndSuffixes src fuel parse message leave) fun node => n.events ≤ node := by
  intro d
  refine (enterNesting_keeps deeplyNestedType d).bind fun entered _ => ?_
  cases entered
  · exact abandonedAtStart_balanced hparse d
  · refine Keeps.bind (mark_balanced (d + 1)) fun restore hrestore => Keeps.bind (parseTypeHead_balanced hparse message (d + 1)) fun head hhead =>
      Keeps.bind (parseTypeSuffixes_balanced leave hhead (d + 1)) fun completed hcompleted => Keeps.bind (leaveNestingTimes_keeps _ 1) fun _ _ => ?_
    rw [add_sub_cancel_right]
    split
    · exact Keeps.pure rfl (hcompleted _ rfl)
    · exact Keeps.get fun s => ((rewind_balanced hrestore).bind fun _ _ => abandonedDeepType_balanced _) d

end

theorem parseType_balanced (src : Source) (fuel : ℕ) : ∀ message, Balanced n (parseType src fuel message) fun node => n.events ≤ node := by
  induction fuel with
  | zero => intro message d s a s' _ _ hrun; cases hrun
  | succ fuel ih => exact fun message => parseTypeAndSuffixes_balanced ih message false

end

/-! ### Speculation leaves no trace -/

/-- A parser that differs from another in nothing but the depth limits it carries. -/
def Untouched (s s' : Parser) : Prop := s' = { s with carriedDepthLimits := s'.carriedDepthLimits }

/-- A parse that ends in a rewind where its result is as `P` says. -/
def Ends {α : Type} (restore : ParserMark) (P : α → Prop) (m : Parsing α) : Prop :=
  ∀ s a s', m s = some (a,s') → P a → ∃ s₁, rewind restore s₁ = some ((),s')

section
variable {α β : Type} {restore : ParserMark} {P : β → Prop} {m : Parsing α} {f : α → Parsing β} {s s' : Parser}

theorem Ends.bind (h : ∀ a, Ends restore P (f a)) : Ends restore P (m >>= f) := by
  intro s b s' hrun hp
  obtain ⟨a,s₁,-,hnext⟩ := bind_some hrun
  exact h a s₁ b s' hnext hp

theorem Ends.rewound {b : β} : Ends restore P (do rewind restore; pure b) := by
  intro s c s' hrun _
  obtain ⟨a,s₁,hrewind,hpure⟩ := bind_some hrun
  cases hpure
  exact ⟨s,hrewind⟩

def Parser.base (s : Parser) : Base := ⟨s.events.length,s.diagnostics.length,s.depthLimits.length,s.recoveries.length,s.refusedNames.length⟩

theorem Parser.below_base (s : Parser) : Below s.base s := ⟨le_rfl,le_rfl,le_rfl,le_rfl,le_rfl⟩

theorem rewind_untouched {restore : ParserMark} {s₁ s₂ : Parser} (hmark : mark s = some (restore,s₂)) (hrewind : rewind restore s₁ = some ((),s'))
    (hfixed : fixed s.base s' = fixed s.base s) (hdepth : s'.nestingDepth = s.nestingDepth) : Untouched s s' := by
  cases hmark
  cases hrewind
  simp only [fixed,Parser.base,List.take_take,min_self,List.take_length,Prod.mk.injEq] at hfixed
  obtain ⟨h₁,h₂,h₃,h₄,h₅,h₆,h₇,h₈⟩ := hfixed
  simp only at hdepth
  simp only [Untouched,h₁,h₂,h₃,h₄,h₅,h₆,h₇,h₈,hdepth]

theorem speculation_untouched {body : ParserMark → Parsing β} {b : β} (hends : ∀ restore, Ends restore P (body restore))
    (hbalanced : Balanced s.base (mark >>= body) fun _ => True) (hrun : (mark >>= body) s = some (b,s')) (hp : P b) : Untouched s s' := by
  obtain ⟨-,hfixed,hdepth,-⟩ := hbalanced s.nestingDepth s b s' s.below_base rfl hrun
  obtain ⟨restore,s₂,hmark,hbody⟩ := bind_some hrun
  obtain ⟨s₁,hrewind⟩ := hends restore s₂ b s' hbody hp
  exact rewind_untouched hmark hrewind hfixed hdepth

end

section
variable {src : Source} {fuel : ℕ} {s s' : Parser}

theorem looksLikeFunctionDeclaration_untouched {allowBodiless result : Bool}
    (hrun : looksLikeFunctionDeclaration src fuel (parseType src fuel) allowBodiless s = some (result,s')) : Untouched s s' :=
  speculation_untouched (P := fun _ => True) (fun _ => Ends.bind fun _ => Ends.bind fun _ => Ends.bind fun _ => Ends.bind fun _ => Ends.bind fun _ =>
    Ends.rewound) (looksLikeFunctionDeclaration_balanced (parseType_balanced src fuel) allowBodiless) hrun trivial

theorem looksLikeKeywordNamedMethod_untouched {result : Bool}
    (hrun : looksLikeKeywordNamedMethod src fuel (parseType src fuel) s = some (result,s')) : Untouched s s' :=
  speculation_untouched (P := fun _ => True) (fun _ => Ends.bind fun _ => Ends.bind fun _ => Ends.bind fun _ => Ends.bind fun _ => Ends.rewound)
    (looksLikeKeywordNamedMethod_balanced (parseType_balanced src fuel)) hrun trivial

theorem topLevelVariableMessage_untouched {message : List ℕ} (hrun : topLevelVariableMessage src fuel s = some (message,s')) : Untouched s s' := by
  refine speculation_untouched (P := fun _ => True) (fun _ => Ends.bind fun _ => Ends.bind fun _ => Ends.bind fun _ => Ends.bind fun _ =>
    Ends.bind fun _ => Ends.rewound) ?_ hrun trivial
  refine mark_balanced.bind fun restore hrestore => Balanced.get fun s => Balanced.either bump_balanced (.pure trivial) fun _ => Balanced.get fun s => ?_
  refine Balanced.either ?_ (.pure trivial) fun _ => Balanced.get fun _ => (rewind_balanced hrestore).bind fun _ _ => .pure trivial
  exact (parseType_balanced src fuel _).bind fun _ _ => Balanced.get fun _ => .pure trivial

theorem atTypedVariableDeclaration_untouched {result : Bool} (hrun : atTypedVariableDeclaration src fuel s = some (result,s')) : Untouched s s' := by
  obtain ⟨s₀,s₁,hget,hnext⟩ := bind_some hrun
  cases hget
  split at hnext
  · cases hnext
    rfl
  · refine speculation_untouched (P := fun _ => True) (fun _ => Ends.bind fun _ => Ends.bind fun _ => Ends.rewound) ?_ hnext trivial
    exact mark_balanced.bind fun restore hrestore => (parseType_balanced src fuel _).bind fun _ _ => Balanced.get fun _ =>
      (rewind_balanced hrestore).bind fun _ _ => .pure trivial

theorem tryParseGenericSuffix_untouched (hrun : tryParseGenericSuffix src fuel s = some (false,s')) : Untouched s s' := by
  refine speculation_untouched (P := fun taken => taken = false) (fun restore => Ends.bind fun _ => Ends.bind fun s₁ => ?_) ?_ hrun rfl
  · split
    · intro s a s' hpure hfalse
      cases hpure
      cases hfalse
    · exact Ends.rewound
  · exact mark_balanced.bind fun restore hrestore => (parseTypeArgumentList_balanced (parseType_balanced src fuel)).bind fun _ _ =>
      Balanced.get fun _ => Balanced.ite (.pure trivial) ((rewind_balanced hrestore).bind fun _ _ => .pure trivial)

end

private def declared : Source where
  input := ⟨utf8 "Foo x;",Utf8.valid_ascii (by decide)⟩
  lexedTokens := [⟨.identifier,0,3,[],[]⟩,⟨.identifier,4,1,[],[]⟩,⟨.semicolon,5,1,[],[]⟩,⟨.endOfFile,6,0,[],[]⟩]

private def fresh : Parser := ⟨0,0,0,[],[],[],0,[],[],0,0,-1,0,-1,-1,"",0,[],false⟩

end Ens.Parse.Speculation
