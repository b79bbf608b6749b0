import Ens.Lex.Characters

/-! # The operators of expressions

One loop reads every operator that stands behind a value, and what it reads wraps what was read before. The parser here reads the tokens values and
operators consist of, all on one line. At a `<` it first reads type arguments, and goes back where they do not lead to a call or a member.
-/
set_option linter.all false
namespace Ens.Parse
open Ens.Lex

structure Token where
  kind : SyntaxKind
  text : String
  glued : Bool
  deriving DecidableEq, Repr

/-! ### Kinds -/

def isPrimitiveTypeKeyword : SyntaxKind → Bool
  | .boolKeyword | .byteKeyword | .shortKeyword | .uShortKeyword | .intKeyword | .uIntKeyword | .longKeyword | .uLongKeyword | .floatKeyword
  | .doubleKeyword | .decimalKeyword | .charKeyword | .stringKeyword | .voidKeyword => true
  | _ => false

def isTypeStart (kind : SyntaxKind) : Bool := kind = .identifier || isPrimitiveTypeKeyword kind

def isLiteralKind : SyntaxKind → Bool
  | .intLiteral | .longLiteral | .floatLiteral | .doubleLiteral | .stringLiteral | .charLiteral | .trueKeyword | .falseKeyword | .nullKeyword => true
  | _ => false

def isSingleToken (kind : SyntaxKind) : Bool := isLiteralKind kind || isPrimitiveTypeKeyword kind || kind = .thisKeyword || kind = .superKeyword

def isPrefixOperator : SyntaxKind → Bool
  | .minus | .plus | .exclamation | .tilde | .plusPlus | .minusMinus => true
  | _ => false

def isAssignmentOperator : SyntaxKind → Bool
  | .equals | .plusEquals | .minusEquals | .starEquals | .slashEquals | .percentEquals | .ampersandEquals | .pipeEquals | .caretEquals
  | .lessLessEquals | .greaterGreaterEquals | .greaterGreaterGreaterEquals => true
  | _ => false

def isKeyword (kind : SyntaxKind) : Bool := decide (kind ∈ keywords.map Prod.snd)

/-- The strength of an operator behind a value, or 0 where the kind ends an expression. -/
def infixPrecedence (kind : SyntaxKind) : ℕ :=
  if isAssignmentOperator kind then 1
  else match kind with
    | .question => 2
    | .pipePipe => 3
    | .ampersandAmpersand => 4
    | .pipe => 5
    | .caret => 6
    | .ampersand => 7
    | .equalsEquals | .notEquals => 8
    | .less | .greater | .lessEquals | .greaterEquals | .isKeyword => 9
    | .lessLess | .greaterGreater | .greaterGreaterGreater => 10
    | .plus | .minus => 11
    | .star | .slash | .percent => 12
    | .asKeyword => 13
    | .dot | .questionDot | .openParenthesis | .openBracket | .plusPlus | .minusMinus => 14
    | _ => 0

namespace Precedence

def nullCoalesce : ℕ := 3

end Precedence

def canStartExpression (kind : SyntaxKind) : Bool :=
  isPrimitiveTypeKeyword kind || match kind with
    | .intLiteral | .longLiteral | .floatLiteral | .doubleLiteral | .stringLiteral | .charLiteral | .interpolatedStringStart | .identifier
    | .trueKeyword | .falseKeyword | .nullKeyword | .thisKeyword | .superKeyword | .newKeyword | .tryKeyword | .throwKeyword | .switchKeyword
    | .openParenthesis | .openBracket | .ellipsis | .minus | .plus | .exclamation | .tilde | .plusPlus | .minusMinus => true
    | _ => false

/-! ### Tokens ahead -/

def currentKind : List Token → SyntaxKind
  | [] => .endOfFile
  | t :: _ => t.kind

def peekKind (ts : List Token) (ahead : ℕ) : SyntaxKind := currentKind (ts.drop ahead)

def atQuestionPair (ts : List Token) : Bool := currentKind ts = .question && peekKind ts 1 = .question

def adjacent : List Token → Bool
  | [] => false
  | t :: _ => t.glued

def atNullCoalesce (ts : List Token) : Bool := atQuestionPair ts && adjacent ts
def atSeparatedNullCoalesce (ts : List Token) : Bool := atQuestionPair ts && !adjacent ts
def atSafeSubscript (ts : List Token) : Bool := currentKind ts = .question && peekKind ts 1 = .openBracket && adjacent ts

def atContextual (ts : List Token) (word : String) : Bool :=
  match ts with
  | [] => false
  | t :: _ => t.kind = .identifier && t.text = word

/-- The tokens behind one that has to stand here. -/
def expect (kind : SyntaxKind) (ts : List Token) : Option (Token × List Token) :=
  match ts with
  | [] => none
  | t :: ts => if t.kind = kind then some (t,ts) else none

/-! ### Type arguments -/

def atClosingAngle (ts : List Token) : Bool :=
  match currentKind ts with
  | .greater | .greaterGreater | .greaterGreaterGreater | .greaterEquals | .greaterGreaterEquals | .greaterGreaterGreaterEquals => true
  | _ => false

def splitRemainderKind : SyntaxKind → SyntaxKind
  | .greaterGreater => .greater
  | .greaterGreaterGreater => .greaterGreater
  | .greaterEquals => .equals
  | .greaterGreaterEquals => .greaterEquals
  | .greaterGreaterGreaterEquals => .greaterGreaterEquals
  | kind => kind

def expectClosingAngle (ts : List Token) : Option (List Token) :=
  match ts with
  | [] => none
  | t :: rest =>
    if t.kind = .greater then some rest
    else if atClosingAngle ts then some ({ t with kind := splitRemainderKind t.kind } :: rest)
    else none

/-- How the reading of a type came out: the tokens behind it, whether it neither reported nor guessed anything, whether a depth limit was reported
up to here, and whether one was carried past the end of a reading that was given up. -/
structure Reading where
  rest : List Token
  clean : Bool
  limited : Bool
  carried : Bool
  deriving DecidableEq, Repr

def endsAbandonedTokens (kind : SyntaxKind) (openConditionals : ℕ) : Bool :=
  match kind with
  | .closeParenthesis | .closeBracket | .comma => true
  | .colon => openConditionals = 0
  | _ => false

def skipAbandonedTokens (depth openConditionals : ℕ) : List Token → List Token
  | [] => []
  | t :: ts =>
    if t.kind = .semicolon ∨ (depth = 0 ∧ endsAbandonedTokens t.kind openConditionals = true) then t :: ts
    else if t.kind = .openParenthesis ∨ t.kind = .openBracket then skipAbandonedTokens (depth + 1) openConditionals ts
    else if t.kind = .closeParenthesis ∨ t.kind = .closeBracket then skipAbandonedTokens (depth - 1) openConditionals ts
    else if t.kind = .question ∧ depth = 0 then
      match ts with
      | [] => []
      | u :: us =>
        if u.kind = .question then skipAbandonedTokens depth openConditionals us
        else if atSafeSubscript (t :: u :: us) = false ∧ canStartExpression u.kind = true then
          skipAbandonedTokens depth (openConditionals + 1) (u :: us)
        else skipAbandonedTokens depth openConditionals (u :: us)
    else if t.kind = .colon ∧ depth = 0 then skipAbandonedTokens depth (openConditionals - 1) ts
    else skipAbandonedTokens depth openConditionals ts

def parseTypeSuffixes : ℕ → List Token → List Token × Bool
  | room, t :: u :: ts =>
    if t.kind = .question then
      match room with
      | 0 => ((parseTypeSuffixes 0 (u :: ts)).1,false)
      | room + 1 => parseTypeSuffixes room (u :: ts)
    else if t.kind = .openBracket ∧ u.kind = .closeBracket then
      match room with
      | 0 => ((parseTypeSuffixes 0 ts).1,false)
      | room + 1 => parseTypeSuffixes room ts
    else (t :: u :: ts,true)
  | room, [t] => if t.kind = .question then ([],decide (0 < room)) else ([t],true)
  | _, [] => ([],true)

def typesAfter (parseType : Bool → List Token → Reading) : ℕ → Reading → Reading
  | 0, reading => reading
  | left + 1, reading =>
    if currentKind reading.rest = .comma then
      if atClosingAngle (reading.rest.drop 1) then { reading with rest := reading.rest.drop 1 }
      else
        let next := parseType reading.limited (reading.rest.drop 1)
        typesAfter parseType left { next with clean := reading.clean && next.clean, carried := reading.carried || next.carried }
    else reading

def parseTypeArgumentList (parseType : Bool → List Token → Reading) (limited : Bool) (ts : List Token) : Reading :=
  let inner := ts.drop 1
  let list :=
    if atClosingAngle inner || inner.isEmpty then ⟨inner,true,limited,false⟩
    else typesAfter parseType inner.length (parseType limited inner)
  match expectClosingAngle list.rest with
  | some rest => { list with rest := rest }
  | none => { list with clean := false }

/-- A name with type arguments. Arguments that do not parse cleanly are left to what reads on, but a depth limit they reported is kept. -/
def parseNamedType (parseType : Bool → List Token → Reading) (limited : Bool) (ts : List Token) : Reading :=
  let named := if currentKind ts = .identifier && peekKind ts 1 = .dot && peekKind ts 2 = .identifier then ts.drop 2 else ts
  let clean := isTypeStart (currentKind named)
  let rest := if clean then named.drop 1 else named
  if currentKind rest = .less then
    let list := parseTypeArgumentList parseType limited rest
    if list.clean then { list with clean := clean }
    else ⟨rest,clean,limited,list.carried || (!limited && list.limited)⟩
  else ⟨rest,clean,limited,false⟩

def parseTypeHead (parseType : Bool → List Token → Reading) (limited : Bool) (ts : List Token) : Reading :=
  if currentKind ts = .openParenthesis then
    let inner := parseType limited (ts.drop 1)
    if currentKind inner.rest = .closeParenthesis then { inner with rest := inner.rest.drop 1 } else { inner with clean := false }
  else parseNamedType parseType limited ts

def parseType : ℕ → Bool → List Token → Reading
  | 0, _, ts => ⟨skipAbandonedTokens 0 0 ts,true,true,false⟩
  | room + 1, limited, ts =>
    let head := parseTypeHead (parseType room) limited ts
    let suffixes := parseTypeSuffixes room head.rest
    if suffixes.2 then { head with rest := suffixes.1 } else ⟨suffixes.1,true,true,head.carried⟩

def typeArgumentsAhead (room : ℕ) (ts : List Token) : Reading := parseTypeArgumentList (parseType room) false ts

def atGenericSuffix (room : ℕ) (ts : List Token) : Bool :=
  let list := typeArgumentsAhead room ts
  currentKind ts = .less && list.clean && (currentKind list.rest = .openParenthesis || currentKind list.rest = .dot)

/-! ### Trees -/

mutual

inductive Tree
  | single (token : Token)
  | embed (tokens : List Token)
  | parenthesized (opener : Token) (inner : Tree) (closer : Token)
  | arrayLiteral (opener : Token) (items : Items) (closer : Token)
  | prefixed (operator : Token) (operand : Tree)
  | postfixed (operand : Tree) (operator : Token)
  | call (callee : Tree) (types : List Token) (opener : Token) (arguments : Items) (closer : Token)
  | genericName (name : Tree) (types : List Token)
  | subscript (operand : Tree) (opener : List Token) (index : Tree) (closer : Token)
  | member (operand : Tree) (dot name : Token)
  | operation (left : Tree) (operator : Token) (right : Tree)
  | nullCoalesce (left : Tree) (first second : Token) (right : Tree)
  | ternary (condition : Tree) (question : Token) (whenTrue : Tree) (colon : Token) (whenFalse : Tree)
  | outArgument (out name : Token)
  | namedArgument (name colon : Token) (value : Tree)

/-- What stands between the brackets of a call or an array literal. -/
inductive Items
  | empty
  | last (item : Tree)
  | trailing (item : Tree) (comma : Token)
  | more (item : Tree) (comma : Token) (others : Items)

end

mutual

def Tree.tokens : Tree → List Token
  | .single t => [t]
  | .embed ts => ts
  | .parenthesized o e c => o :: e.tokens ++ [c]
  | .arrayLiteral o items c => o :: items.tokens ++ [c]
  | .prefixed op e => op :: e.tokens
  | .postfixed e op => e.tokens ++ [op]
  | .call e types o items c => e.tokens ++ types ++ o :: items.tokens ++ [c]
  | .genericName e types => e.tokens ++ types
  | .subscript e o i c => e.tokens ++ o ++ i.tokens ++ [c]
  | .member e dot name => e.tokens ++ [dot,name]
  | .operation l op r => l.tokens ++ op :: r.tokens
  | .nullCoalesce l q q' r => l.tokens ++ q :: q' :: r.tokens
  | .ternary e q a colon b => e.tokens ++ q :: a.tokens ++ colon :: b.tokens
  | .outArgument out name => [out,name]
  | .namedArgument name colon e => name :: colon :: e.tokens

def Items.tokens : Items → List Token
  | .empty => []
  | .last e => e.tokens
  | .trailing e comma => e.tokens ++ [comma]
  | .more e comma others => e.tokens ++ comma :: others.tokens

end

-- derives the equations once, for all the proofs below
attribute [local grind =] Tree.tokens Items.tokens

/-! ### The parser -/

structure State where
  ts : List Token
  carried : Bool
  deriving DecidableEq, Repr

abbrev Parser := State → Option (Tree × State)

def atEmbed (ts : List Token) : Bool :=
  atContextual ts "embed" && (peekKind ts 1 = .stringLiteral || atContextual (ts.drop 1) "folder")

def parseEmbedExpression (s : State) : Option (Tree × State) :=
  let words := if atContextual (s.ts.drop 1) "folder" then 2 else 1
  match expect .stringLiteral (s.ts.drop words) with
  | some (path,rest) => some (.embed (s.ts.take words ++ [path]),⟨rest,s.carried⟩)
  | none => none

def parseItems (item : Parser) (closer : SyntaxKind) : ℕ → State → Option (Items × State)
  | 0, _ => none
  | left + 1, s =>
    match item s with
    | none => none
    | some (e,s) =>
      match expect .comma s.ts with
      | none => some (.last e,s)
      | some (comma,rest) =>
        if currentKind rest = closer then some (.trailing e comma,⟨rest,s.carried⟩)
        else match parseItems item closer left ⟨rest,s.carried⟩ with
          | some (others,s) => some (.more e comma others,s)
          | none => none

/-- What stands behind an opener, with its closer. -/
def parseEnclosed (item : Parser) (closer : SyntaxKind) (s : State) : Option (Items × Token × State) :=
  match expect closer s.ts with
  | some (c,rest) => some (.empty,c,⟨rest,s.carried⟩)
  | none =>
    match parseItems item closer s.ts.length s with
    | none => none
    | some (items,s) =>
      match expect closer s.ts with
      | some (c,rest) => some (items,c,⟨rest,s.carried⟩)
      | none => none

def parseArgument (parse : ℕ → Parser) (s : State) : Option (Tree × State) :=
  match s.ts with
  | t :: u :: ts =>
    if atContextual s.ts "out" ∧ u.kind = .identifier then some (.outArgument t u,⟨ts,s.carried⟩)
    else if t.kind = .identifier ∧ u.kind = .colon then
      match parse 1 ⟨ts,s.carried⟩ with
      | some (e,s) => some (.namedArgument t u e,s)
      | none => none
    else parse 1 s
  | _ => parse 1 s

def parsePrefix (parse : ℕ → Parser) (s : State) : Option (Tree × State) :=
  match s.ts with
  | [] => none
  | t :: ts =>
    if isSingleToken t.kind then some (.single t,⟨ts,s.carried⟩)
    else if t.kind = .identifier then
      if atEmbed s.ts then parseEmbedExpression s else some (.single t,⟨ts,s.carried⟩)
    else if t.kind = .openParenthesis then
      match parse 1 ⟨ts,s.carried⟩ with
      | none => none
      | some (e,s) =>
        match expect .closeParenthesis s.ts with
        | some (c,rest) => some (.parenthesized t e c,⟨rest,s.carried⟩)
        | none => none
    else if isPrefixOperator t.kind then
      match parse 13 ⟨ts,s.carried⟩ with
      | some (e,s) => some (.prefixed t e,s)
      | none => none
    else if t.kind = .openBracket then
      match parseEnclosed (parse 1) .closeBracket ⟨ts,s.carried⟩ with
      | some (items,c,s) => some (.arrayLiteral t items c,s)
      | none => none
    else none

def precedenceAt (ts : List Token) : ℕ :=
  if atSafeSubscript ts then 14
  else if atQuestionPair ts then Precedence.nullCoalesce
  else infixPrecedence (currentKind ts)

def parseIndex (parse : ℕ → Parser) (completed : Tree) (opener : List Token) (s : State) : Option (Tree × State) :=
  match parse 1 s with
  | none => none
  | some (i,s) =>
    match expect .closeBracket s.ts with
    | some (c,rest) => some (.subscript completed opener i c,⟨rest,s.carried⟩)
    | none => none

def parseCall (parse : ℕ → Parser) (completed : Tree) (types : List Token) (s : State) : Option (Tree × State) :=
  match s.ts with
  | [] => none
  | o :: ts =>
    match parseEnclosed (parseArgument parse) .closeParenthesis ⟨ts,s.carried⟩ with
    | some (arguments,c,s) => some (.call completed types o arguments c,s)
    | none => none

def parseBranches (parse : ℕ → Parser) (completed : Tree) (question : Token) (s : State) : Option (Tree × State) :=
  match parse 1 s with
  | none => none
  | some (a,s) =>
    match expect .colon s.ts with
    | none => none
    | some (colon,rest) =>
      match parse 1 ⟨rest,s.carried⟩ with
      | some (b,s) => some (.ternary completed question a colon b,s)
      | none => none

/-- The operator at a place, which wraps what was read before it. -/
def parseLink (parse : ℕ → Parser) (completed : Tree) (s : State) : Option (Tree × State) :=
  match s.ts with
  | [] => none
  | t :: ts =>
    if atSafeSubscript s.ts then parseIndex parse completed (s.ts.take 2) ⟨s.ts.drop 2,s.carried⟩
    else if atNullCoalesce s.ts then
      match ts with
      | [] => none
      | u :: us =>
        match parse Precedence.nullCoalesce ⟨us,s.carried⟩ with
        | some (r,s) => some (.nullCoalesce completed t u r,s)
        | none => none
    else if atSeparatedNullCoalesce s.ts then none
    else if t.kind = .question then parseBranches parse completed t ⟨ts,s.carried⟩
    else if t.kind = .openParenthesis then parseCall parse completed [] s
    else if t.kind = .openBracket then parseIndex parse completed [t] ⟨ts,s.carried⟩
    else if t.kind = .plusPlus ∨ t.kind = .minusMinus then some (.postfixed completed t,⟨ts,s.carried⟩)
    else if t.kind = .dot ∨ t.kind = .questionDot then
      match ts with
      | [] => none
      | name :: ts => if name.kind = .identifier ∨ isKeyword name.kind = true then some (.member completed t name,⟨ts,s.carried⟩) else none
    else if t.kind = .asKeyword ∨ t.kind = .isKeyword then none
    else
      match parse (if isAssignmentOperator t.kind then infixPrecedence t.kind else infixPrecedence t.kind + 1) ⟨ts,s.carried⟩ with
      | some (r,s) => some (.operation completed t r,s)
      | none => none

def parseGeneric (parse : ℕ → Parser) (completed : Tree) (types : List Token) (s : State) : Option (Tree × State) :=
  if currentKind s.ts = .openParenthesis then parseCall parse completed types s else some (.genericName completed types,s)

mutual

/-- An expression of operators as strong as `minPrecedence`, with as many levels of nesting left as `room` says. -/
def parsePrecedence : ℕ → ℕ → Parser
  | 0, _, _ => none
  | room + 1, minPrecedence, s =>
    match parsePrefix (parsePrecedence room) s with
    | some (e,s) => extend room minPrecedence e s
    | none => none

/-- The loop over what follows. Type arguments taken over a depth limit, which is reported, end it as a report does. -/
def extend : ℕ → ℕ → Tree → Parser
  | room, minPrecedence, completed, s =>
    if atGenericSuffix room s.ts then
      match room with
      | 0 => none
      | room + 1 =>
        let list := typeArgumentsAhead (room + 1) s.ts
        if list.limited then none
        else match parseGeneric (parsePrecedence room) completed (s.ts.take (s.ts.length - list.rest.length)) ⟨list.rest,s.carried || list.carried⟩ with
          | some (e,s) => extend room minPrecedence e s
          | none => none
    else
      let carried := s.carried || (decide (currentKind s.ts = .less) && (typeArgumentsAhead room s.ts).carried)
      if precedenceAt s.ts < minPrecedence ∨ precedenceAt s.ts = 0 then some (completed,⟨s.ts,carried⟩)
      else match room with
        | 0 => none
        | room + 1 =>
          match parseLink (parsePrecedence room) completed ⟨s.ts,carried⟩ with
          | some (e,s) => extend room minPrecedence e s
          | none => none

end

namespace Nesting

def maximumDepth : ℕ := 500

end Nesting

def parseExpression (nestingDepth : ℕ) : Parser := parsePrecedence (Nesting.maximumDepth - nestingDepth) 1

/-! ### The table -/

def inExpressions (kind : SyntaxKind) : Bool :=
  isSingleToken kind || isPrefixOperator kind || (decide (0 < infixPrecedence kind) && kind ≠ .asKeyword && kind ≠ .isKeyword) || match kind with
    | .identifier | .closeParenthesis | .closeBracket | .comma | .colon | .semicolon => true
    | _ => false

def Tree.strength : Tree → ℕ
  | .single _ | .embed _ | .parenthesized .. | .arrayLiteral .. => 15
  | .postfixed .. | .call .. | .genericName .. | .subscript .. | .member .. => 14
  | .prefixed .. => 13
  | .operation _ op _ => infixPrecedence op.kind
  | .nullCoalesce .. => Precedence.nullCoalesce
  | .ternary .. => 2
  | .outArgument .. | .namedArgument .. => 0

/-- The strongest operator that may take a tree as what stands before it. An operator that is stronger goes to the last operand of the tree. -/
def Tree.yields : Tree → ℕ
  | .prefixed .. => 12
  | .operation _ op _ => if isAssignmentOperator op.kind then 0 else infixPrecedence op.kind
  | .nullCoalesce .. => Precedence.nullCoalesce - 1
  | .ternary .. | .outArgument .. | .namedArgument .. => 0
  | _ => 14

/-- The operators between two operands, which a right operand weaker than `rightLevel` has to be in parentheses behind. -/
def isOperation (kind : SyntaxKind) : Bool := decide (1 ≤ infixPrecedence kind ∧ infixPrecedence kind ≤ 12 ∧ kind ≠ .question ∧ kind ≠ .isKeyword)

def rightLevel (kind : SyntaxKind) : ℕ := if isAssignmentOperator kind then infixPrecedence kind else infixPrecedence kind + 1

def IsOpener : List Token → Prop
  | [o] => o.kind = .openBracket
  | [q,o] => q.kind = .question ∧ q.glued = true ∧ o.kind = .openBracket
  | _ => False

theorem isOpener_cases {o : List Token} (h : IsOpener o) :
    (∃ b, o = [b] ∧ b.kind = .openBracket) ∨ ∃ q b, o = [q,b] ∧ q.kind = .question ∧ q.glued = true ∧ b.kind = .openBracket := by
  rcases o with _ | ⟨a,_ | ⟨b,_ | ⟨c,o⟩⟩⟩
  · exact h.elim
  · exact .inl ⟨a,rfl,h⟩
  · exact .inr ⟨a,b,rfl,h⟩
  · exact h.elim

mutual

/-- The operands of a tree are as strong as the table asks for where they stand without parentheses. -/
def Tree.Meets : Tree → Prop
  | .single t => isSingleToken t.kind = true ∨ t.kind = .identifier
  | .embed _ | .outArgument .. => True
  | .parenthesized o e c => o.kind = .openParenthesis ∧ c.kind = .closeParenthesis ∧ e.Meets ∧ 1 ≤ e.strength
  | .arrayLiteral o items c => o.kind = .openBracket ∧ c.kind = .closeBracket ∧ items.Meets
  | .prefixed op e => isPrefixOperator op.kind = true ∧ e.Meets ∧ 13 ≤ e.strength
  | .postfixed e op => (op.kind = .plusPlus ∨ op.kind = .minusMinus) ∧ e.Meets ∧ 14 ≤ e.yields
  | .call e _ o arguments c => o.kind = .openParenthesis ∧ c.kind = .closeParenthesis ∧ e.Meets ∧ 14 ≤ e.yields ∧ arguments.Meets
  | .genericName e _ => e.Meets ∧ 14 ≤ e.yields
  | .subscript e o i c => IsOpener o ∧ c.kind = .closeBracket ∧ e.Meets ∧ 14 ≤ e.yields ∧ i.Meets ∧ 1 ≤ i.strength
  | .member e dot name => (dot.kind = .dot ∨ dot.kind = .questionDot) ∧ (name.kind = .identifier ∨ isKeyword name.kind = true) ∧ e.Meets ∧ 14 ≤ e.yields
  | .operation l op r => isOperation op.kind = true ∧ l.Meets ∧ infixPrecedence op.kind ≤ l.yields ∧ r.Meets ∧ rightLevel op.kind ≤ r.strength
  | .nullCoalesce l q q' r => (q.kind = .question ∧ q'.kind = .question ∧ q.glued = true) ∧ l.Meets ∧ Precedence.nullCoalesce ≤ l.yields ∧
      r.Meets ∧ Precedence.nullCoalesce ≤ r.strength
  | .ternary e q a colon b => (q.kind = .question ∧ colon.kind = .colon) ∧ e.Meets ∧ 2 ≤ e.yields ∧ (a.Meets ∧ 1 ≤ a.strength) ∧ b.Meets ∧
      1 ≤ b.strength
  | .namedArgument name colon e => name.kind = .identifier ∧ colon.kind = .colon ∧ e.Meets ∧ 1 ≤ e.strength

def Items.Meets : Items → Prop
  | .empty => True
  | .last e => e.Meets
  | .trailing e comma => e.Meets ∧ comma.kind = .comma
  | .more e comma others => e.Meets ∧ comma.kind = .comma ∧ others.Meets ∧ others ≠ .empty

end

attribute [local grind =] Tree.strength Tree.yields Tree.Meets Items.Meets

mutual

def Tree.Plain : Tree → Prop
  | .single _ => True
  | .embed _ | .arrayLiteral .. | .genericName .. | .outArgument .. | .namedArgument .. => False
  | .parenthesized _ e _ | .prefixed _ e | .postfixed e _ | .member e _ _ => e.Plain
  | .call e types _ arguments _ => e.Plain ∧ types = [] ∧ arguments.Plain
  | .subscript e _ i _ => e.Plain ∧ i.Plain
  | .operation l _ r | .nullCoalesce l _ _ r => l.Plain ∧ r.Plain
  | .ternary e _ a _ b => e.Plain ∧ a.Plain ∧ b.Plain

def Items.Plain : Items → Prop
  | .empty => True
  | .last e | .trailing e _ => e.Plain
  | .more e _ others => e.Plain ∧ others.Plain

end

attribute [local grind =] Tree.Plain Items.Plain

/-- The operators of a tree that wrap what was read before them, which take a level each. -/
def Tree.links : Tree → ℕ
  | .postfixed e _ | .call e .. | .genericName e _ | .subscript e .. | .member e .. | .operation e .. | .nullCoalesce e .. | .ternary e .. =>
      e.links + 1
  | _ => 0

mutual

def Tree.depth : Tree → ℕ
  | .single _ | .embed _ | .outArgument .. => 0
  | .parenthesized _ e _ | .prefixed _ e | .namedArgument _ _ e => e.depth + 1
  | .arrayLiteral _ items _ => items.depth
  | .postfixed e _ | .member e _ _ | .genericName e _ => max e.depth (e.links + 1)
  | .call e _ _ arguments _ => max e.depth (e.links + 1 + arguments.depth)
  | .subscript e _ i _ => max e.depth (e.links + 1 + (i.depth + 1))
  | .operation l _ r | .nullCoalesce l _ _ r => max l.depth (l.links + 1 + (r.depth + 1))
  | .ternary e _ a _ b => max e.depth (e.links + 1 + max (a.depth + 1) (b.depth + 1))

def Items.depth : Items → ℕ
  | .empty => 0
  | .last e | .trailing e _ => e.depth + 1
  | .more e _ others => max (e.depth + 1) others.depth

end

attribute [local grind =] Tree.links Tree.depth Items.depth

/-- No `<` begins type arguments before a call or a member. -/
def NoTypeArguments (ts : List Token) : Prop := ∀ s, s <:+ ts → ∀ room, atGenericSuffix room s = false

/-- No type arguments read ahead of a `<` carry a depth limit while at most as many levels are left as `room` says. -/
def Clear (room : ℕ) (ts : List Token) : Prop := ∀ s, s <:+ ts → currentKind s = .less → ∀ left ≤ room, (typeArgumentsAhead left s).carried = false

/-! ### Strengths -/

theorem infixPrecedence_le (kind : SyntaxKind) : infixPrecedence kind ≤ 14 := by cases kind <;> decide

theorem precedenceAt_le (ts : List Token) : precedenceAt ts ≤ 14 := by
  unfold precedenceAt Precedence.nullCoalesce
  have := infixPrecedence_le (currentKind ts)
  split
  · omega
  · split <;> omega

theorem isOperation_of {kind : SyntaxKind} (h : 0 < infixPrecedence kind) (hq : kind ≠ .question) (hp : kind ≠ .openParenthesis)
    (hb : kind ≠ .openBracket)
    (hx : ¬ (kind = .plusPlus ∨ kind = .minusMinus)) (hd : ¬ (kind = .dot ∨ kind = .questionDot)) (hc : ¬ (kind = .asKeyword ∨ kind = .isKeyword)) :
    isOperation kind = true := by
  cases kind <;> first | rfl | simp_all [infixPrecedence,isAssignmentOperator]

theorem rightLevel_le {kind : SyntaxKind} (h : isOperation kind = true) : 1 ≤ rightLevel kind ∧ rightLevel kind ≤ 13 := by
  have hop := of_decide_eq_true h
  unfold rightLevel
  split <;> omega

/-- An operator after a right operand takes the operation as its own left one. -/
theorem operation_yields {l r : Tree} {op : Token} {p : ℕ} (h : p < rightLevel op.kind ∨ p = 0) : p ≤ (Tree.operation l op r).yields := by
  have hone : isAssignmentOperator op.kind = true → infixPrecedence op.kind = 1 := fun h => if_pos h
  simp only [Tree.yields]
  unfold rightLevel at h
  split at h <;> rename_i ha
  · rw [if_pos ha]
    have := hone ha
    omega
  · rw [if_neg ha]
    omega

theorem expect_eq {kind : SyntaxKind} {ts : List Token} {t : Token} {rest : List Token} (h : expect kind ts = some (t,rest)) :
    ts = t :: rest ∧ t.kind = kind := by
  unfold expect at h
  split at h
  · cases h
  · split at h
    · rename_i hk
      simp only [Option.some.injEq,Prod.mk.injEq] at h
      obtain ⟨rfl,rfl⟩ := h
      exact ⟨rfl,hk⟩
    · cases h

theorem NoTypeArguments.suffix {ts s : List Token} (h : NoTypeArguments ts) (hs : s <:+ ts) : NoTypeArguments s :=
  fun s' hs' => h s' (hs'.trans hs)

theorem NoTypeArguments.append {ts added rest : List Token} (h : NoTypeArguments ts) (heq : ts = added ++ rest) : NoTypeArguments rest :=
  h.suffix (heq ▸ List.suffix_append added rest)

theorem NoTypeArguments.tail {t : Token} {ts : List Token} (h : NoTypeArguments (t :: ts)) : NoTypeArguments ts :=
  h.suffix (List.suffix_cons t ts)

/-! ### What is read meets the table -/

/-- A parser of expressions gives trees that meet the table, from the tokens it takes. -/
def Sound (parse : ℕ → Parser) : Prop :=
  ∀ level s e s', NoTypeArguments s.ts → 1 ≤ level → level ≤ 13 → parse level s = some (e,s') →
    s.ts = e.tokens ++ s'.ts ∧ e.Meets ∧ level ≤ e.strength ∧ (precedenceAt s'.ts < level ∨ precedenceAt s'.ts = 0)

section
variable {parse : ℕ → Parser} {s s' : State} {e completed : Tree}

/-- An item of a list. -/
def SoundItem (item : Parser) : Prop := ∀ s e s', NoTypeArguments s.ts → item s = some (e,s') → s.ts = e.tokens ++ s'.ts ∧ e.Meets

theorem Sound.item (h : Sound parse) : SoundItem (parse 1) := fun s e s' hno hrun =>
  have hread := h 1 s e s' hno le_rfl (by decide) hrun
  ⟨hread.1,hread.2.1⟩

theorem parseArgument_sound (h : Sound parse) : SoundItem (parseArgument parse) := by
  intro s e s' hno hrun
  unfold parseArgument at hrun
  split at hrun
  · rename_i t u ts hts
    split at hrun
    · simp only [Option.some.injEq,Prod.mk.injEq] at hrun
      obtain ⟨rfl,rfl⟩ := hrun
      exact ⟨hts,trivial⟩
    · split at hrun
      · rename_i hkinds
        split at hrun
        · rename_i e' s'' hvalue
          simp only [Option.some.injEq,Prod.mk.injEq] at hrun
          obtain ⟨rfl,rfl⟩ := hrun
          obtain ⟨htokens,hmeets,hstrength,-⟩ := h 1 _ _ _ (hts ▸ hno).tail.tail le_rfl (by decide) hvalue
          exact ⟨by rw [hts,Tree.tokens,List.cons_append,List.cons_append,← htokens],hkinds.1,hkinds.2,hmeets,hstrength⟩
        · cases hrun
      · exact h.item s e s' hno hrun
  · exact h.item s e s' hno hrun

theorem parseItems_sound {item : Parser} {closer : SyntaxKind} (h : SoundItem item) : ∀ {left : ℕ} {s s' : State} {items : Items},
    NoTypeArguments s.ts → parseItems item closer left s = some (items,s') → s.ts = items.tokens ++ s'.ts ∧ items.Meets ∧ items ≠ .empty := by
  intro left
  induction left with
  | zero => intro s s' items _ hrun; cases hrun
  | succ left ih =>
    intro s s' items hno hrun
    unfold parseItems at hrun
    split at hrun
    · cases hrun
    · rename_i e s₁ hitem
      obtain ⟨htokens,hmeets⟩ := h _ _ _ hno hitem
      split at hrun
      · simp only [Option.some.injEq,Prod.mk.injEq] at hrun
        obtain ⟨rfl,rfl⟩ := hrun
        exact ⟨htokens,hmeets,Items.noConfusion⟩
      · rename_i comma rest hcomma
        obtain ⟨hrest,hkind⟩ := expect_eq hcomma
        split at hrun
        · simp only [Option.some.injEq,Prod.mk.injEq] at hrun
          obtain ⟨rfl,rfl⟩ := hrun
          exact ⟨by rw [htokens,hrest,Items.tokens,List.append_assoc,List.singleton_append],⟨hmeets,hkind⟩,Items.noConfusion⟩
        · split at hrun
          · rename_i others s₂ hothers
            simp only [Option.some.injEq,Prod.mk.injEq] at hrun
            obtain ⟨rfl,rfl⟩ := hrun
            have hno' : NoTypeArguments rest := (hrest ▸ hno.append htokens).tail
            obtain ⟨htokens',hmeets',hne⟩ := ih hno' hothers
            simp only at htokens'
            exact ⟨by rw [htokens,hrest,Items.tokens,List.append_assoc,List.cons_append,← htokens'],⟨hmeets,hkind,hmeets',hne⟩,Items.noConfusion⟩
          · cases hrun

theorem parseEnclosed_sound {item : Parser} {closer : SyntaxKind} {items : Items} {c : Token} (h : SoundItem item) (hno : NoTypeArguments s.ts)
    (hrun : parseEnclosed item closer s = some (items,c,s')) : s.ts = items.tokens ++ c :: s'.ts ∧ c.kind = closer ∧ items.Meets := by
  unfold parseEnclosed at hrun
  split at hrun
  · rename_i c' rest hclose
    simp only [Option.some.injEq,Prod.mk.injEq] at hrun
    obtain ⟨rfl,rfl,rfl⟩ := hrun
    obtain ⟨hts,hkind⟩ := expect_eq hclose
    exact ⟨hts,hkind,trivial⟩
  · split at hrun
    · cases hrun
    · rename_i items' s₁ hitems
      obtain ⟨htokens,hmeets,-⟩ := parseItems_sound h hno hitems
      split at hrun
      · rename_i c' rest hclose
        simp only [Option.some.injEq,Prod.mk.injEq] at hrun
        obtain ⟨rfl,rfl,rfl⟩ := hrun
        obtain ⟨hts,hkind⟩ := expect_eq hclose
        exact ⟨by rw [htokens,hts],hkind,hmeets⟩
      · cases hrun

theorem parsePrefix_sound (h : Sound parse) (hno : NoTypeArguments s.ts) (hrun : parsePrefix parse s = some (e,s')) :
    s.ts = e.tokens ++ s'.ts ∧ e.Meets ∧ 13 ≤ e.strength ∧ precedenceAt s'.ts ≤ e.yields := by
  unfold parsePrefix at hrun
  split at hrun
  · cases hrun
  rename_i t ts hts
  rw [hts] at hno
  have htail := hno.tail
  split at hrun
  · rename_i hsingle
    simp only [Option.some.injEq,Prod.mk.injEq] at hrun
    obtain ⟨rfl,rfl⟩ := hrun
    exact ⟨hts,.inl hsingle,(by decide : 13 ≤ 15),precedenceAt_le _⟩
  split at hrun
  · rename_i hname
    split at hrun
    · unfold parseEmbedExpression at hrun
      simp only at hrun
      split at hrun
      · rename_i path rest hpath
        simp only [Option.some.injEq,Prod.mk.injEq] at hrun
        obtain ⟨rfl,rfl⟩ := hrun
        obtain ⟨hdrop,-⟩ := expect_eq hpath
        refine ⟨?_,trivial,(by decide : 13 ≤ 15),precedenceAt_le _⟩
        rw [Tree.tokens,List.append_assoc,List.singleton_append,← hdrop,List.take_append_drop]
      · cases hrun
    · simp only [Option.some.injEq,Prod.mk.injEq] at hrun
      obtain ⟨rfl,rfl⟩ := hrun
      exact ⟨hts,.inr hname,(by decide : 13 ≤ 15),precedenceAt_le _⟩
  split at hrun
  · rename_i hopen
    split at hrun
    · cases hrun
    · rename_i e' s₁ hinner
      obtain ⟨htokens,hmeets,hstrength,-⟩ := h 1 _ _ _ htail le_rfl (by decide) hinner
      split at hrun
      · rename_i c rest hclose
        simp only [Option.some.injEq,Prod.mk.injEq] at hrun
        obtain ⟨rfl,rfl⟩ := hrun
        obtain ⟨hrest,hkind⟩ := expect_eq hclose
        refine ⟨?_,⟨hopen,hkind,hmeets,hstrength⟩,(by decide : 13 ≤ 15),precedenceAt_le _⟩
        simp only at htokens
        simp only [hts,htokens,hrest,Tree.tokens,List.cons_append,List.append_assoc,List.nil_append]
      · cases hrun
  split at hrun
  · rename_i hop
    split at hrun
    · rename_i e' s₁ hoperand
      simp only [Option.some.injEq,Prod.mk.injEq] at hrun
      obtain ⟨rfl,rfl⟩ := hrun
      obtain ⟨htokens,hmeets,hstrength,hstop⟩ := h 13 _ _ _ htail (by decide) le_rfl hoperand
      exact ⟨by rw [hts,Tree.tokens,List.cons_append,← htokens],⟨hop,hmeets,hstrength⟩,le_rfl,by simp only [Tree.yields]; omega⟩
    · cases hrun
  split at hrun
  · rename_i hopen
    split at hrun
    · rename_i items c s₁ hitems
      simp only [Option.some.injEq,Prod.mk.injEq] at hrun
      obtain ⟨rfl,rfl⟩ := hrun
      obtain ⟨htokens,hkind,hmeets⟩ := parseEnclosed_sound h.item htail hitems
      refine ⟨?_,⟨hopen,hkind,hmeets⟩,(by decide : 13 ≤ 15),precedenceAt_le _⟩
      simp only at htokens
      simp only [hts,htokens,Tree.tokens,List.cons_append,List.append_assoc,List.nil_append]
    · cases hrun
  · cases hrun

/-- A tree that wraps another with the tokens behind it. -/
def Wraps (completed e : Tree) (ts rest : List Token) : Prop :=
  (∃ added, e.tokens = completed.tokens ++ added ∧ ts = added ++ rest) ∧ e.Meets ∧ precedenceAt ts ≤ e.strength ∧ precedenceAt rest ≤ e.yields

theorem parseIndex_sound {opener : List Token} (h : Sound parse) (hno : NoTypeArguments s.ts) (hmeets : completed.Meets)
    (hyields : 14 ≤ completed.yields)
    (hopener : IsOpener opener) (hrun : parseIndex parse completed opener s = some (e,s')) : Wraps completed e (opener ++ s.ts) s'.ts := by
  unfold parseIndex at hrun
  split at hrun
  · cases hrun
  · rename_i i s₁ hindex
    obtain ⟨htokens,hmeets',hstrength,-⟩ := h 1 _ _ _ hno le_rfl (by decide) hindex
    split at hrun
    · rename_i c rest hclose
      simp only [Option.some.injEq,Prod.mk.injEq] at hrun
      obtain ⟨rfl,rfl⟩ := hrun
      obtain ⟨hrest,hkind⟩ := expect_eq hclose
      refine ⟨⟨opener ++ i.tokens ++ [c],?_,?_⟩,⟨hopener,hkind,hmeets,hyields,hmeets',hstrength⟩,precedenceAt_le _,precedenceAt_le _⟩
      · simp only [Tree.tokens,List.append_assoc]
      · rw [htokens,hrest,List.append_assoc,List.append_assoc,List.singleton_append]
    · cases hrun

theorem parseCall_sound {types : List Token} (h : Sound parse) (hno : NoTypeArguments s.ts) (hmeets : completed.Meets) (hyields : 14 ≤ completed.yields)
    (hopen : currentKind s.ts = .openParenthesis) (hrun : parseCall parse completed types s = some (e,s')) : Wraps completed e
        (types ++ s.ts) s'.ts := by
  unfold parseCall at hrun
  split at hrun
  · cases hrun
  · rename_i o ts hts
    rw [hts] at hno hopen
    split at hrun
    · rename_i arguments c s₁ harguments
      simp only [Option.some.injEq,Prod.mk.injEq] at hrun
      obtain ⟨rfl,rfl⟩ := hrun
      obtain ⟨htokens,hkind,hitems⟩ := parseEnclosed_sound (parseArgument_sound h) hno.tail harguments
      simp only at htokens
      refine ⟨⟨types ++ o :: arguments.tokens ++ [c],?_,?_⟩,⟨hopen,hkind,hmeets,hyields,hitems⟩,precedenceAt_le _,precedenceAt_le _⟩
      · simp only [Tree.tokens,List.append_assoc]
      · rw [hts,htokens,List.append_assoc,List.append_assoc,List.cons_append,List.singleton_append]
    · cases hrun

theorem parseBranches_sound {q : Token} (h : Sound parse) (hno : NoTypeArguments s.ts) (hmeets : completed.Meets) (hyields : 2 ≤ completed.yields)
    (hq : q.kind = .question) (hp : precedenceAt (q :: s.ts) = 2) (hrun : parseBranches parse completed q s = some (e,s')) :
    Wraps completed e (q :: s.ts) s'.ts := by
  unfold parseBranches at hrun
  split at hrun
  · cases hrun
  · rename_i a s₁ hwhen
    obtain ⟨htokens,hmeets₁,hstrength₁,-⟩ := h 1 _ _ _ hno le_rfl (by decide) hwhen
    split at hrun
    · cases hrun
    · rename_i colon rest hcolon
      obtain ⟨hrest,hkind⟩ := expect_eq hcolon
      have hno' : NoTypeArguments rest := (hrest ▸ hno.append htokens).tail
      split at hrun
      · rename_i b s₂ hother
        simp only [Option.some.injEq,Prod.mk.injEq] at hrun
        obtain ⟨rfl,rfl⟩ := hrun
        obtain ⟨htokens',hmeets₂,hstrength₂,hstop⟩ := h 1 _ _ _ hno' le_rfl (by decide) hother
        simp only at htokens'
        refine ⟨⟨q :: a.tokens ++ colon :: b.tokens,?_,?_⟩,⟨⟨hq,hkind⟩,hmeets,hyields,⟨hmeets₁,hstrength₁⟩,hmeets₂,hstrength₂⟩,hp.le,?_⟩
        · rw [Tree.tokens,List.append_assoc,List.cons_append]
        · simp only [htokens,hrest,htokens',List.cons_append,List.append_assoc]
        · simp only [Tree.yields]
          omega
      · cases hrun

theorem atSafeSubscript_eq {ts : List Token} (h : atSafeSubscript ts = true) :
    ∃ q o rest, ts = q :: o :: rest ∧ q.kind = .question ∧ q.glued = true ∧ o.kind = .openBracket := by
  simp only [atSafeSubscript,Bool.and_eq_true,decide_eq_true_eq] at h
  obtain ⟨⟨hq,ho⟩,hglued⟩ := h
  match ts with
  | [] => cases hq
  | [_] => cases ho
  | q :: o :: rest => exact ⟨q,o,rest,rfl,hq,hglued,ho⟩

theorem atNullCoalesce_eq {ts : List Token} (h : atNullCoalesce ts = true) :
    ∃ q q' rest, ts = q :: q' :: rest ∧ q.kind = .question ∧ q.glued = true ∧ q'.kind = .question := by
  simp only [atNullCoalesce,atQuestionPair,Bool.and_eq_true,decide_eq_true_eq] at h
  obtain ⟨⟨hq,hq'⟩,hglued⟩ := h
  match ts with
  | [] => cases hq
  | [_] => cases hq'
  | q :: q' :: rest => exact ⟨q,q',rest,rfl,hq,hglued,hq'⟩

theorem parseLink_sound {ts : List Token} {carried : Bool} (h : Sound parse) (hno : NoTypeArguments ts) (hmeets : completed.Meets)
    (hyields : precedenceAt ts ≤ completed.yields) (hpos : 0 < precedenceAt ts) (hrun : parseLink parse completed ⟨ts,carried⟩ = some (e,s')) :
    Wraps completed e ts s'.ts := by
  unfold parseLink at hrun
  simp only at hrun
  split at hrun
  · cases hrun
  rename_i t ts
  have htail := hno.tail
  by_cases hsafe : atSafeSubscript (t :: ts) = true
  · rw [if_pos hsafe] at hrun
    obtain ⟨q,o,rest,heq,hq,hglued,ho⟩ := atSafeSubscript_eq hsafe
    have hp : precedenceAt (t :: ts) = 14 := if_pos hsafe
    cases heq
    have hopener : IsOpener [t,o] := ⟨hq,hglued,ho⟩
    exact parseIndex_sound h htail.tail hmeets (hp ▸ hyields) hopener hrun
  rw [if_neg hsafe] at hrun
  by_cases hcoalesce : atNullCoalesce (t :: ts) = true
  · rw [if_pos hcoalesce] at hrun
    obtain ⟨q,q',rest,heq,hq,hglued,hq'⟩ := atNullCoalesce_eq hcoalesce
    have hpair : atQuestionPair (t :: ts) = true := (Bool.and_eq_true_iff.1 hcoalesce).1
    have hp : precedenceAt (t :: ts) = 3 := by
      unfold precedenceAt
      rw [if_neg hsafe,if_pos hpair]
      rfl
    cases heq
    simp only at hrun
    split at hrun
    · rename_i r s₁ hright
      simp only [Option.some.injEq,Prod.mk.injEq] at hrun
      obtain ⟨rfl,rfl⟩ := hrun
      obtain ⟨htokens,hmeets',hstrength,hstop⟩ := h 3 _ _ _ htail.tail (by decide) (by decide) hright
      simp only at htokens
      refine ⟨⟨t :: q' :: r.tokens,rfl,?_⟩,⟨⟨hq,hq',hglued⟩,hmeets,hp.symm.trans_le hyields,hmeets',hstrength⟩,hp.le,?_⟩
      · rw [List.cons_append,List.cons_append,← htokens]
      · simp only [Tree.yields,Precedence.nullCoalesce]
        omega
    · cases hrun
  rw [if_neg hcoalesce] at hrun
  by_cases hseparated : atSeparatedNullCoalesce (t :: ts) = true
  · rw [if_pos hseparated] at hrun
    cases hrun
  rw [if_neg hseparated] at hrun
  have hpair : ¬ atQuestionPair (t :: ts) = true := by
    intro hpair
    rw [atNullCoalesce,hpair,Bool.true_and] at hcoalesce
    rw [atSeparatedNullCoalesce,hpair,Bool.true_and,Bool.not_eq_true',Bool.not_eq_false] at hseparated
    exact hcoalesce hseparated
  have hp : precedenceAt (t :: ts) = infixPrecedence t.kind := by
    unfold precedenceAt
    rw [if_neg hsafe,if_neg hpair]
    rfl
  rw [hp] at hyields hpos
  by_cases hquestion : t.kind = .question
  · rw [if_pos hquestion] at hrun
    rw [hquestion] at hyields hp
    exact parseBranches_sound h htail hmeets hyields hquestion hp hrun
  rw [if_neg hquestion] at hrun
  by_cases hopen : t.kind = .openParenthesis
  · rw [if_pos hopen] at hrun
    rw [hopen] at hyields
    exact parseCall_sound (s := ⟨t :: ts,carried⟩) h hno hmeets hyields hopen hrun
  rw [if_neg hopen] at hrun
  by_cases hbracket : t.kind = .openBracket
  · rw [if_pos hbracket] at hrun
    rw [hbracket] at hyields
    have hopener : IsOpener [t] := hbracket
    exact parseIndex_sound h htail hmeets hyields hopener hrun
  rw [if_neg hbracket] at hrun
  by_cases hop : t.kind = .plusPlus ∨ t.kind = .minusMinus
  · rw [if_pos hop] at hrun
    simp only [Option.some.injEq,Prod.mk.injEq] at hrun
    obtain ⟨rfl,rfl⟩ := hrun
    have hfourteen : infixPrecedence t.kind = 14 := by
      rcases hop with hop | hop <;> rw [hop] <;> rfl
    exact ⟨⟨[t],rfl,rfl⟩,⟨hop,hmeets,hfourteen ▸ hyields⟩,precedenceAt_le _,precedenceAt_le _⟩
  rw [if_neg hop] at hrun
  by_cases hdot : t.kind = .dot ∨ t.kind = .questionDot
  · rw [if_pos hdot] at hrun
    have hfourteen : infixPrecedence t.kind = 14 := by
      rcases hdot with hdot | hdot <;> rw [hdot] <;> rfl
    split at hrun
    · cases hrun
    · rename_i name rest
      split at hrun
      · rename_i hname
        simp only [Option.some.injEq,Prod.mk.injEq] at hrun
        obtain ⟨rfl,rfl⟩ := hrun
        exact ⟨⟨[t,name],rfl,rfl⟩,⟨hdot,hname,hmeets,hfourteen ▸ hyields⟩,precedenceAt_le _,precedenceAt_le _⟩
      · cases hrun
  rw [if_neg hdot] at hrun
  by_cases hcast : t.kind = .asKeyword ∨ t.kind = .isKeyword
  · rw [if_pos hcast] at hrun
    cases hrun
  rw [if_neg hcast] at hrun
  have hop := isOperation_of hpos hquestion hopen hbracket hop hdot hcast
  split at hrun
  · rename_i r s₁ hright
    simp only [Option.some.injEq,Prod.mk.injEq] at hrun
    obtain ⟨rfl,rfl⟩ := hrun
    obtain ⟨hone,hlevel⟩ := rightLevel_le hop
    obtain ⟨htokens,hmeets',hstrength,hstop⟩ := h (rightLevel t.kind) _ _ _ htail hone hlevel hright
    simp only at htokens
    refine ⟨⟨t :: r.tokens,rfl,?_⟩,⟨hop,hmeets,hyields,hmeets',hstrength⟩,hp.le,operation_yields hstop⟩
    rw [List.cons_append,← htokens]
  · cases hrun

end

theorem extend_eq {room minPrecedence : ℕ} {completed : Tree} {s : State} (h : atGenericSuffix room s.ts = false) :
    extend room minPrecedence completed s =
      let carried := s.carried || (decide (currentKind s.ts = .less) && (typeArgumentsAhead room s.ts).carried)
      if precedenceAt s.ts < minPrecedence ∨ precedenceAt s.ts = 0 then some (completed,⟨s.ts,carried⟩)
      else match room with
        | 0 => none
        | room + 1 =>
          match parseLink (parsePrecedence room) completed ⟨s.ts,carried⟩ with
          | some (e,s) => extend room minPrecedence e s
          | none => none := by
  conv_lhs => unfold extend
  rw [if_neg (by rw [h]; decide)]

/-- What one pass of the loop hands on. -/
def SoundLoop (room : ℕ) : Prop :=
  ∀ level completed s e s', NoTypeArguments s.ts → 1 ≤ level → completed.Meets → level ≤ completed.strength → precedenceAt s.ts ≤ completed.yields →
    extend room level completed s = some (e,s') →
    (∃ added, e.tokens = completed.tokens ++ added ∧ s.ts = added ++ s'.ts) ∧ e.Meets ∧ level ≤ e.strength ∧
      (precedenceAt s'.ts < level ∨ precedenceAt s'.ts = 0)

theorem extend_step {room : ℕ} (hstep : ∀ room', room = room' + 1 → Sound (parsePrecedence room') ∧ SoundLoop room') : SoundLoop room := by
  intro level completed s e s' hno hlevel hmeets hstrength hyields hrun
  rw [extend_eq (hno _ List.suffix_rfl room)] at hrun
  simp only at hrun
  split at hrun
  · rename_i hstop
    simp only [Option.some.injEq,Prod.mk.injEq] at hrun
    obtain ⟨rfl,rfl⟩ := hrun
    exact ⟨⟨[],(List.append_nil _).symm,rfl⟩,hmeets,hstrength,hstop⟩
  · rename_i hgo
    cases room with
    | zero => cases hrun
    | succ room =>
      obtain ⟨hparse,hloop⟩ := hstep room rfl
      simp only at hrun
      split at hrun
      · rename_i e₁ s₁ hlink
        obtain ⟨⟨added,htokens,hts⟩,hmeets₁,hstrength₁,hyields₁⟩ := parseLink_sound hparse hno hmeets hyields (by omega) hlink
        obtain ⟨⟨added',htokens',hts'⟩,hend⟩ := hloop level e₁ s₁ e s' (hno.append hts) hlevel hmeets₁ (by omega) hyields₁ hrun
        exact ⟨⟨added ++ added',by rw [htokens',htokens,List.append_assoc],by rw [hts,hts',List.append_assoc]⟩,hend⟩
      · cases hrun

theorem parsePrecedence_sound (room : ℕ) : Sound (parsePrecedence room) ∧ SoundLoop room := by
  induction room with
  | zero =>
    refine ⟨fun level s e s' _ _ _ hrun => ?_,extend_step fun room' h => by cases h⟩
    cases hrun
  | succ room ih =>
    refine ⟨fun level s e s' hno hone hlevel hrun => ?_,extend_step fun room' h => ?_⟩
    · unfold parsePrecedence at hrun
      split at hrun
      · rename_i e₁ s₁ hfront
        obtain ⟨htokens,hmeets,hstrength,hyields⟩ := parsePrefix_sound ih.1 hno hfront
        obtain ⟨⟨added,htokens',hts⟩,hend⟩ := ih.2 level e₁ s₁ e s' (hno.append htokens) hone hmeets (by omega) hyields hrun
        exact ⟨by rw [htokens,hts,htokens',List.append_assoc],hend⟩
      · cases hrun
    · obtain rfl := Nat.succ.inj h
      exact ih

/-! ### What meets the table is read -/

/-- Tokens that go on after a value on its own do not begin with a name or a text. -/
def Follows (ts : List Token) : Prop := currentKind ts ≠ .identifier ∧ currentKind ts ≠ .stringLiteral

def started (room level : ℕ) (s : State) : Option (Tree × State) :=
  match parsePrefix (parsePrecedence room) s with
  | some (e,s) => extend room level e s
  | none => none

/-- Reading the tokens of a tree is going on behind it, where what follows leaves the tree as it is. -/
def Tree.Reads (e : Tree) : Prop :=
  ∀ room level rest c, e.depth ≤ room → level ≤ e.strength → precedenceAt rest ≤ e.yields → Follows rest → NoTypeArguments (e.tokens ++ rest) →
    ∃ c', (Clear room (e.tokens ++ rest) → c' = c) ∧ started room level ⟨e.tokens ++ rest,c⟩ = extend (room - e.links) level e ⟨rest,c'⟩

theorem Clear.mono {room left : ℕ} {ts s : List Token} (h : Clear room ts) (hs : s <:+ ts) (hle : left ≤ room) : Clear left s :=
  fun s' hs' hk r hr => h s' (hs'.trans hs) hk r (hr.trans hle)

theorem Clear.append {room left : ℕ} {added rest : List Token} (h : Clear room (added ++ rest)) (hle : left ≤ room) : Clear left rest :=
  h.mono (List.suffix_append added rest) hle

theorem Clear.tail {room left : ℕ} {t : Token} {ts : List Token} (h : Clear room (t :: ts)) (hle : left ≤ room) : Clear left ts :=
  h.mono (List.suffix_cons t ts) hle

theorem yields_le_strength (e : Tree) : e.yields ≤ e.strength := by
  cases e <;> simp only [Tree.yields,Tree.strength] <;> first | decide | (split <;> omega)

section
variable {room level : ℕ} {ts rest : List Token} {c : Bool} {e l r : Tree} {t : Token}

theorem carried_of_clear (h : Clear room ts) : (c || (decide (currentKind ts = .less) && (typeArgumentsAhead room ts).carried)) = c := by
  by_cases hk : currentKind ts = .less
  · rw [h ts List.suffix_rfl hk room le_rfl,Bool.and_false,Bool.or_false]
  · rw [decide_eq_false hk,Bool.false_and,Bool.or_false]

theorem extend_ends (room : ℕ) (e : Tree) (c : Bool) (hno : NoTypeArguments ts) (hstop : precedenceAt ts < level ∨ precedenceAt ts = 0) :
    ∃ c', (Clear room ts → c' = c) ∧ extend room level e ⟨ts,c⟩ = some (e,⟨ts,c'⟩) := by
  rw [extend_eq (hno ts List.suffix_rfl room)]
  exact ⟨_,carried_of_clear,if_pos hstop⟩

theorem extend_link (room : ℕ) (e : Tree) (c : Bool) (hno : NoTypeArguments ts) (hlevel : level ≤ precedenceAt ts) (hpos : 0 < precedenceAt ts) :
    ∃ c', (Clear (room + 1) ts → c' = c) ∧ ∀ e' s', parseLink (parsePrecedence room) e ⟨ts,c'⟩ = some (e',s') →
      extend (room + 1) level e ⟨ts,c⟩ = extend room level e' s' := by
  rw [extend_eq (hno ts List.suffix_rfl (room + 1))]
  refine ⟨_,carried_of_clear,fun e' s' hlink => ?_⟩
  simp only
  rw [if_neg (by omega),hlink]

theorem operand (level : ℕ) (c : Bool) (h : e.Reads) (hdepth : e.depth < room) (hlevel : level ≤ e.strength)
    (hstop : precedenceAt rest < level ∨ precedenceAt rest = 0)
    (hyields : precedenceAt rest ≤ e.yields) (hfollows : Follows rest) (hno : NoTypeArguments (e.tokens ++ rest)) :
    ∃ c', (Clear room (e.tokens ++ rest) → c' = c) ∧ parsePrecedence room level ⟨e.tokens ++ rest,c⟩ = some (e,⟨rest,c'⟩) := by
  obtain ⟨room,rfl⟩ : ∃ k, room = k + 1 := ⟨room - 1,by omega⟩
  obtain ⟨c₁,hc₁,hrun⟩ := h room level rest c (by omega) hlevel hyields hfollows hno
  obtain ⟨c₂,hc₂,hend⟩ := extend_ends (room - e.links) e c₁ (hno.append rfl) hstop
  refine ⟨c₂,fun hclear => ?_,hrun.trans hend⟩
  rw [hc₂ (hclear.append (by omega)),hc₁ (hclear.mono List.suffix_rfl (by omega))]

/-- An operator that wraps a tree is read where the tree is and where the operator is. -/
theorem reads_link (added : List Token) (hl : l.Reads) (htokens : e.tokens = l.tokens ++ added) (hlinks : e.links = l.links + 1)
    (hleft : l.depth ≤ e.depth) (hroom : l.links + 1 ≤ e.depth) (hp : ∀ rest, precedenceAt (added ++ rest) = e.strength) (hpos : 0 < e.strength)
    (hyields : e.strength ≤ l.yields) (hfollows : ∀ rest, Follows (added ++ rest))
    (hlink : ∀ room rest c, e.depth ≤ room + (l.links + 1) → precedenceAt rest ≤ e.yields → Follows rest → NoTypeArguments (added ++ rest) →
      ∃ c', (Clear room (added ++ rest) → c' = c) ∧ parseLink (parsePrecedence room) l ⟨added ++ rest,c⟩ = some (e,⟨rest,c'⟩)) : e.Reads := by
  intro room level rest c hdepth hlevel hrest hfollow hno
  rw [htokens,List.append_assoc] at hno ⊢
  have hstrength := yields_le_strength l
  obtain ⟨c₁,hc₁,hrun₁⟩ := hl room level (added ++ rest) c (by omega) (by omega) (by rw [hp]; exact hyields) (hfollows rest) hno
  have hleave : room - l.links = room - e.links + 1 := by omega
  obtain ⟨c₂,hc₂,hrun₂⟩ := extend_link (room - e.links) l c₁ (hno.append rfl) ((hp rest).symm ▸ hlevel) ((hp rest).symm ▸ hpos)
  obtain ⟨c₃,hc₃,hrun₃⟩ := hlink (room - e.links) rest c₂ (by omega) hrest hfollow (hno.append rfl)
  refine ⟨c₃,fun hclear => ?_,?_⟩
  · rw [hc₃ (hclear.append (by omega)),hc₂ (hclear.append (by omega)),hc₁ hclear]
  · rw [hrun₁,hleave,hrun₂ _ _ hrun₃]

/-! ### Kinds of operators -/

theorem precedenceAt_cons (h : t.kind ≠ .question) : precedenceAt (t :: ts) = infixPrecedence t.kind := by
  simp [precedenceAt,atSafeSubscript,atQuestionPair,currentKind,h]

theorem not_question (ts : List Token) (h : t.kind ≠ .question) :
    atSafeSubscript (t :: ts) = false ∧ atNullCoalesce (t :: ts) = false ∧ atSeparatedNullCoalesce (t :: ts) = false := by
  simp [atSafeSubscript,atNullCoalesce,atSeparatedNullCoalesce,atQuestionPair,currentKind,h]

theorem isOperation_ne {kind : SyntaxKind} (h : isOperation kind = true) :
    kind ≠ .question ∧ kind ≠ .openParenthesis ∧ kind ≠ .openBracket ∧ ¬ (kind = .plusPlus ∨ kind = .minusMinus) ∧
      ¬ (kind = .dot ∨ kind = .questionDot) ∧ ¬ (kind = .asKeyword ∨ kind = .isKeyword) ∧ kind ≠ .identifier ∧ kind ≠ .stringLiteral ∧
          kind ≠ .colon := by
  refine ⟨?_,?_,?_,?_,?_,?_,?_,?_,?_⟩ <;> (intro hk; first | subst hk | (rcases hk with rfl | rfl)) <;> exact absurd h (by decide)

/-- Operators of two operands that assign nothing are as strong as `||`. -/
theorem not_assignment_three {kind : SyntaxKind} (hq : kind ≠ .question) (ha : ¬ isAssignmentOperator kind = true) (h : isOperation kind = true) :
    3 ≤ infixPrecedence kind := by
  cases kind <;> first | (exact absurd h (by decide)) | (exact absurd rfl ha) | decide

theorem parseLink_operation {parse : ℕ → Parser} (h : isOperation t.kind = true) :
    parseLink parse l ⟨t :: ts,c⟩ = match parse (rightLevel t.kind) ⟨ts,c⟩ with
      | some (r,s) => some (.operation l t r,s)
      | none => none := by
  obtain ⟨hq,hp,hb,hs,hd,hc,-⟩ := isOperation_ne h
  obtain ⟨hsafe,hcoalesce,hseparated⟩ := not_question ts hq
  simp only [parseLink,hsafe,hcoalesce,hseparated,if_neg hq,if_neg hp,if_neg hb,if_neg hs,if_neg hd,if_neg hc,Bool.false_eq_true,if_false]
  rfl

/-! ### Each tree -/

def starts (kind : SyntaxKind) : Bool := isSingleToken kind || kind = .identifier || kind = .openParenthesis || isPrefixOperator kind

theorem starts_ne {kind : SyntaxKind} (h : starts kind = true) : kind ≠ .question ∧ kind ≠ .openBracket ∧ kind ≠ .closeParenthesis := by
  refine ⟨?_,?_,?_⟩ <;> rintro rfl <;> exact absurd h (by decide)

/-- A tree has a first token, and it is no operator behind a value and no closer. -/
def Tree.Starts (e : Tree) : Prop := ∃ t ts, e.tokens = t :: ts ∧ starts t.kind = true

theorem starts_append {added : List Token} (h : l.Starts) (htokens : e.tokens = l.tokens ++ added) : e.Starts := by
  obtain ⟨t,ts,hl,ht⟩ := h
  exact ⟨t,ts ++ added,by rw [htokens,hl,List.cons_append],ht⟩

theorem Tree.head (e : Tree) : e.Meets → e.Plain → e.Starts := by
  induction e using Tree.rec (motive_2 := fun _ => True) with
  | single t => exact fun hm _ => ⟨t,[],rfl,by rcases hm with h | h <;> simp [starts,h]⟩
  | parenthesized o e c => exact fun hm _ => ⟨o,e.tokens ++ [c],rfl,by simp [starts,hm.1]⟩
  | prefixed op e => exact fun hm _ => ⟨op,e.tokens,rfl,by simp [starts,hm.1]⟩
  | postfixed e op ih => exact fun hm hp => starts_append (ih hm.2.1 hp) rfl
  | member e dot name ih => exact fun hm hp => starts_append (ih hm.2.2.1 hp) rfl
  | call e types o arguments c ih =>
    exact fun hm hp => starts_append (ih hm.2.2.1 hp.1) (by simp only [Tree.tokens,List.append_assoc]; rfl)
  | subscript e o i c ih => exact fun hm hp => starts_append (ih hm.2.2.1 hp.1) (by simp only [Tree.tokens,List.append_assoc]; rfl)
  | operation l op r ih => exact fun hm hp => starts_append (ih hm.2.1 hp.1) rfl
  | nullCoalesce l q q' r ih => exact fun hm hp => starts_append (ih hm.2.1 hp.1) rfl
  | ternary e q a colon b ih => exact fun hm hp => starts_append (ih hm.2.1 hp.1) (by simp only [Tree.tokens,List.append_assoc]; rfl)
  | embed | arrayLiteral | genericName | outArgument | namedArgument => exact fun _ hp => hp.elim
  | empty | last | trailing | more => trivial

theorem single_reads (hm : isSingleToken t.kind = true ∨ t.kind = .identifier) : (Tree.single t).Reads := by
  intro room level rest c _ _ _ hfollows _
  refine ⟨c,fun _ => rfl,?_⟩
  have hembed : atEmbed (t :: rest) = false := by
    obtain ⟨hname,htext⟩ := hfollows
    have hfolder : atContextual rest "folder" = false := by
      unfold atContextual
      split
      · rfl
      · exact Bool.and_eq_false_imp.2 fun h => absurd (of_decide_eq_true h) hname
    simp [atEmbed,peekKind,htext,hfolder]
  have hfront : parsePrefix (parsePrecedence room) ⟨(Tree.single t).tokens ++ rest,c⟩ = some (.single t,⟨rest,c⟩) := by
    simp only [parsePrefix,Tree.tokens,List.singleton_append,hembed]
    by_cases hs : isSingleToken t.kind = true
    · rw [if_pos hs]
    · rw [if_neg hs,if_pos (hm.resolve_left hs)]
      rfl
  rw [started,hfront]
  rfl

theorem parenthesized_reads {o closer : Token} (he : e.Reads) (ho : o.kind = .openParenthesis) (hcloser : closer.kind = .closeParenthesis)
    (hstrength : 1 ≤ e.strength) : (Tree.parenthesized o e closer).Reads := by
  intro room level rest c hdepth _ _ _ hno
  simp only [Tree.tokens,List.cons_append,List.append_assoc,List.nil_append,Tree.depth] at hno hdepth ⊢
  have hzero : precedenceAt (closer :: rest) = 0 := by
    rw [precedenceAt_cons (by rw [hcloser]; decide),hcloser]
    rfl
  obtain ⟨c₁,hc₁,hrun⟩ := operand 1 c he (by omega : e.depth < room) hstrength (.inr hzero)
    (by rw [hzero]; exact Nat.zero_le _) (by simp [Follows,currentKind,hcloser]) hno.tail
  refine ⟨c₁,fun hclear => hc₁ (hclear.tail le_rfl),?_⟩
  have hfront : parsePrefix (parsePrecedence room) ⟨o :: (e.tokens ++ closer :: rest),c⟩ = some (.parenthesized o e closer,⟨rest,c₁⟩) := by
    simp [parsePrefix,ho,isSingleToken,isLiteralKind,isPrimitiveTypeKeyword,hrun,expect,hcloser]
  rw [started,hfront]
  rfl

theorem prefixed_reads {op : Token} (he : e.Reads) (hop : isPrefixOperator op.kind = true) (hstrength : 13 ≤ e.strength) (hyields : 12 ≤ e.yields) :
    (Tree.prefixed op e).Reads := by
  intro room level rest c hdepth _ hrest hfollows hno
  simp only [Tree.tokens,List.cons_append,Tree.depth,Tree.yields] at hno hdepth hrest ⊢
  obtain ⟨c₁,hc₁,hrun⟩ := operand 13 c he (by omega : e.depth < room) hstrength (.inl (by omega)) (by omega) hfollows
    hno.tail
  refine ⟨c₁,fun hclear => hc₁ (hclear.tail le_rfl),?_⟩
  have hfront : parsePrefix (parsePrecedence room) ⟨op :: (e.tokens ++ rest),c⟩ = some (.prefixed op e,⟨rest,c₁⟩) := by
    have hsingle : isSingleToken op.kind = false := by
      revert hop
      cases op.kind <;> decide
    have hname : op.kind ≠ .identifier ∧ op.kind ≠ .openParenthesis := by
      constructor <;> intro h <;> rw [h] at hop <;> exact absurd hop (by decide)
    simp [parsePrefix,hsingle,hname,hop,hrun]
  rw [started,hfront]
  rfl

/-- An operator behind a tree goes to the tree where it would go to an operand the tree is strong enough to be. -/
theorem strength_le_yields (hstrength : Precedence.nullCoalesce ≤ e.strength) : e.strength ≤ e.yields + 1 := by
  cases e with
  | operation l op r =>
    have hone : isAssignmentOperator op.kind = true → infixPrecedence op.kind = 1 := fun h => if_pos h
    simp only [Tree.strength,Tree.yields,Precedence.nullCoalesce] at hstrength ⊢
    split
    · rename_i h
      rw [hone h] at hstrength
      omega
    · omega
  | ternary | outArgument | namedArgument => exact absurd hstrength (by simp [Tree.strength,Precedence.nullCoalesce])
  | _ => simp [Tree.strength,Tree.yields,Precedence.nullCoalesce]

/-- A closer or a separator ends what stands before it. -/
theorem ends_at (ts : List Token) (h : infixPrecedence t.kind = 0) (hname : t.kind ≠ .identifier) (htext : t.kind ≠ .stringLiteral) :
    precedenceAt (t :: ts) = 0 ∧ Follows (t :: ts) :=
  ⟨(precedenceAt_cons (by intro hq; rw [hq] at h; exact absurd h (by decide))).trans h,hname,htext⟩

theorem value_reads (c : Bool) (h : e.Reads) (hdepth : e.depth < room) (hstrength : 1 ≤ e.strength) (ht : infixPrecedence t.kind = 0)
    (hname : t.kind ≠ .identifier) (htext : t.kind ≠ .stringLiteral) (hno : NoTypeArguments (e.tokens ++ t :: rest)) :
    ∃ c', (Clear room (e.tokens ++ t :: rest) → c' = c) ∧ parsePrecedence room 1 ⟨e.tokens ++ t :: rest,c⟩ = some (e,⟨t :: rest,c'⟩) := by
  obtain ⟨hzero,hfollows⟩ := ends_at rest ht hname htext
  exact operand 1 c h hdepth hstrength (.inr hzero) (by rw [hzero]; exact Nat.zero_le _) hfollows hno

theorem postfixed_reads {op : Token} (he : e.Reads) (hop : op.kind = .plusPlus ∨ op.kind = .minusMinus) (hyields : 14 ≤ e.yields) :
    (Tree.postfixed e op).Reads := by
  have hq : op.kind ≠ .question := by rcases hop with h | h <;> rw [h] <;> decide
  have hp : infixPrecedence op.kind = 14 := by rcases hop with h | h <;> rw [h] <;> rfl
  refine reads_link [op] he rfl rfl (le_max_left _ _) (le_max_right _ _) (fun rest => (precedenceAt_cons hq).trans hp) (Nat.succ_pos 13) hyields
    (fun rest => ?_) fun room rest c _ _ _ _ => ⟨c,fun _ => rfl,?_⟩
  · rcases hop with h | h <;> simp [Follows,currentKind,h]
  · obtain ⟨hsafe,hcoalesce,hseparated⟩ := not_question rest hq
    rcases hop with h | h <;> simp [parseLink,hsafe,hcoalesce,hseparated,h]

theorem member_reads {dot name : Token} (he : e.Reads) (hdot : dot.kind = .dot ∨ dot.kind = .questionDot)
    (hname : name.kind = .identifier ∨ isKeyword name.kind = true) (hyields : 14 ≤ e.yields) : (Tree.member e dot name).Reads := by
  have hq : dot.kind ≠ .question := by rcases hdot with h | h <;> rw [h] <;> decide
  have hp : infixPrecedence dot.kind = 14 := by rcases hdot with h | h <;> rw [h] <;> rfl
  refine reads_link [dot,name] he rfl rfl (le_max_left _ _) (le_max_right _ _) (fun rest => (precedenceAt_cons hq).trans hp) (Nat.succ_pos 13) hyields
    (fun rest => ?_) fun room rest c _ _ _ _ => ⟨c,fun _ => rfl,?_⟩
  · rcases hdot with h | h <;> simp [Follows,currentKind,h]
  · obtain ⟨hsafe,hcoalesce,hseparated⟩ := not_question (name :: rest) hq
    rcases hdot with h | h <;> simp [parseLink,hsafe,hcoalesce,hseparated,h,hname]

theorem operation_reads {op : Token} (hl : l.Reads) (hr : r.Reads) (hop : isOperation op.kind = true) (hleft : infixPrecedence op.kind ≤ l.yields)
    (hright : rightLevel op.kind ≤ r.strength) : (Tree.operation l op r).Reads := by
  obtain ⟨hq,-,-,-,-,-,hname,htext,-⟩ := isOperation_ne hop
  have hpos := (of_decide_eq_true hop).1
  refine reads_link (op :: r.tokens) hl rfl rfl (le_max_left _ _) (by simp only [Tree.depth]; omega) (fun rest => precedenceAt_cons hq) hpos
    hleft (fun rest => ⟨hname,htext⟩) fun room rest c hdepth hrest hfollows hno => ?_
  have hstop : precedenceAt rest < rightLevel op.kind ∨ precedenceAt rest = 0 := by
    simp only [Tree.yields] at hrest
    unfold rightLevel
    split at hrest <;> rename_i ha
    · omega
    · rw [if_neg ha]
      omega
  have hyields : precedenceAt rest ≤ r.yields := by
    by_cases hzero : precedenceAt rest = 0
    · omega
    · have hstrong := hstop.resolve_right hzero
      simp only [Tree.yields] at hrest
      unfold rightLevel at hstrong hright
      split at hrest <;> rename_i ha
      · omega
      · rw [if_neg ha] at hstrong hright
        by_cases hthree : Precedence.nullCoalesce ≤ r.strength
        · have := strength_le_yields hthree
          omega
        · have hlow := not_assignment_three (isOperation_ne hop).1 ha hop
          unfold Precedence.nullCoalesce at hthree
          omega
  obtain ⟨c₁,hc₁,hrun⟩ := operand (rightLevel op.kind) c hr
      (by simp only [Tree.depth] at hdepth; omega : r.depth < room) hright hstop hyields hfollows hno.tail
  refine ⟨c₁,fun hclear => hc₁ (hclear.tail le_rfl),?_⟩
  rw [List.cons_append,parseLink_operation hop,hrun]

theorem nullCoalesce_reads {q q' : Token} (hl : l.Reads) (hr : r.Reads) (hq : q.kind = .question) (hq' : q'.kind = .question) (hglued : q.glued = true)
    (hleft : Precedence.nullCoalesce ≤ l.yields) (hright : Precedence.nullCoalesce ≤ r.strength) : (Tree.nullCoalesce l q q' r).Reads := by
  have hpair : ∀ ts, atSafeSubscript (q :: q' :: ts) = false ∧ atQuestionPair (q :: q' :: ts) = true := fun ts => by
    simp [atSafeSubscript,atQuestionPair,currentKind,peekKind,hq,hq']
  refine reads_link (q :: q' :: r.tokens) hl rfl rfl (le_max_left _ _) (by simp only [Tree.depth]; omega) (fun rest => ?_) (Nat.succ_pos 2) hleft
    (fun rest => ?_) fun room rest c hdepth hrest hfollows hno => ?_
  · simp [precedenceAt,hpair,Tree.strength]
  · simp [Follows,currentKind,hq]
  · have hyields := strength_le_yields hright
    have hweak : precedenceAt rest ≤ 2 := hrest
    have hthree : Precedence.nullCoalesce = 3 := rfl
    obtain ⟨c₁,hc₁,hrun⟩ := operand Precedence.nullCoalesce c hr (by simp only [Tree.depth] at hdepth; omega : r.depth < room) hright
      (.inl (by omega)) (by omega) hfollows hno.tail.tail
    refine ⟨c₁,fun hclear => hc₁ ((hclear.tail le_rfl).tail le_rfl),?_⟩
    have hcoalesce : atNullCoalesce (q :: q' :: (r.tokens ++ rest)) = true := by simp [atNullCoalesce,hpair,adjacent,hglued]
    simp only [List.cons_append,parseLink,hpair,hcoalesce,Bool.false_eq_true,if_false,if_true,hrun]

theorem ternary_reads {a b : Tree} {q colon : Token} (he : e.Reads) (ha : a.Reads) (hb : b.Reads) (hstart : a.Starts) (hq : q.kind = .question)
    (hcolon : colon.kind = .colon) (hleft : 2 ≤ e.yields) (hwhen : 1 ≤ a.strength) (hother : 1 ≤ b.strength) : (Tree.ternary e q a colon b).Reads := by
  obtain ⟨t,ts,htokens,ht⟩ := hstart
  obtain ⟨hquestion,hbracket,-⟩ := starts_ne ht
  have halone : ∀ rest, atSafeSubscript (q :: (a.tokens ++ rest)) = false ∧ atQuestionPair (q :: (a.tokens ++ rest)) = false := fun rest => by
    simp [atSafeSubscript,atQuestionPair,currentKind,peekKind,htokens,hquestion,hbracket]
  refine reads_link (q :: a.tokens ++ colon :: b.tokens) he (by simp only [Tree.tokens,List.append_assoc,List.cons_append]) rfl (le_max_left _ _)
    (by simp only [Tree.depth]; omega) (fun rest => ?_) (Nat.succ_pos 1) hleft (fun rest => ?_) fun room rest c hdepth hrest hfollows hno => ?_
  · simp only [List.cons_append,List.append_assoc,precedenceAt,halone,currentKind,hq,Bool.false_eq_true,if_false]
    rfl
  · simp [Follows,currentKind,hq]
  · simp only [Tree.depth,Tree.yields,List.cons_append,List.append_assoc] at hdepth hrest hno ⊢
    obtain ⟨c₁,hc₁,hrun₁⟩ := value_reads c ha (by omega : a.depth < room) hwhen (by rw [hcolon]; rfl) (by rw [hcolon]; decide) (by rw [hcolon]; decide)
      hno.tail
    obtain ⟨c₂,hc₂,hrun₂⟩ := operand 1 c₁ hb (by omega : b.depth < room) hother (.inr (by omega)) (by omega) hfollows (hno.tail.append rfl).tail
    refine ⟨c₂,fun hclear => ?_,?_⟩
    · have hbehind := hclear.tail le_rfl
      rw [hc₂ ((hbehind.append le_rfl).tail le_rfl),hc₁ hbehind]
    · have hcoalesce : ∀ rest, atNullCoalesce (q :: (a.tokens ++ rest)) = false ∧ atSeparatedNullCoalesce
        (q :: (a.tokens ++ rest)) = false := fun rest => by
        simp [atNullCoalesce,atSeparatedNullCoalesce,halone]
      simp [parseLink,halone,hcoalesce,hq,parseBranches,hrun₁,expect,hcolon,hrun₂]

theorem subscript_reads {i : Tree} {o : List Token} {closer : Token} (he : e.Reads) (hi : i.Reads) (ho : IsOpener o)
    (hcloser : closer.kind = .closeBracket)
    (hyields : 14 ≤ e.yields) (hstrength : 1 ≤ i.strength) : (Tree.subscript e o i closer).Reads := by
  have hindex : ∀ {room : ℕ} {rest : List Token} {c : Bool}, i.depth < room → NoTypeArguments (i.tokens ++ closer :: rest) →
      ∃ c', (Clear room (i.tokens ++ closer :: rest) → c' = c) ∧
        parseIndex (parsePrecedence room) e o ⟨i.tokens ++ closer :: rest,c⟩ = some (.subscript e o i closer,⟨rest,c'⟩) := by
    intro room rest c hdepth hno
    obtain ⟨c₁,hc₁,hrun⟩ := value_reads c hi hdepth hstrength (by rw [hcloser]; rfl) (by rw [hcloser]; decide) (by rw [hcloser]; decide) hno
    exact ⟨c₁,hc₁,by simp only [parseIndex,hrun,expect,if_pos hcloser]⟩
  rcases isOpener_cases ho with ⟨b,rfl,hb⟩ | ⟨q,b,rfl,hq,hglued,hb⟩
  · refine reads_link ([b] ++ i.tokens ++ [closer]) he (by simp only [Tree.tokens,List.append_assoc]) rfl (le_max_left _ _)
      (by simp only [Tree.depth]; omega) (fun rest => ?_) (Nat.succ_pos 13) hyields (fun rest => ?_) fun room rest c hdepth _ _ hno => ?_
    · exact (precedenceAt_cons (by rw [hb]; decide)).trans (by rw [hb]; rfl)
    · simp [Follows,currentKind,hb]
    · simp only [Tree.depth,List.append_assoc,List.cons_append,List.nil_append] at hdepth hno ⊢
      obtain ⟨c₁,hc₁,hrun⟩ := hindex (by omega : i.depth < room) hno.tail
      refine ⟨c₁,fun hclear => hc₁ (hclear.tail le_rfl),?_⟩
      obtain ⟨hsafe,hcoalesce,hseparated⟩ := not_question (i.tokens ++ closer :: rest) (t := b) (by rw [hb]; decide)
      simp [parseLink,hsafe,hcoalesce,hseparated,hb,hrun]
  · have hsafe : ∀ rest, atSafeSubscript (q :: b :: rest) = true := fun rest => by
      simp [atSafeSubscript,currentKind,peekKind,adjacent,hq,hb,hglued]
    refine reads_link ([q,b] ++ i.tokens ++ [closer]) he (by simp only [Tree.tokens,List.append_assoc]) rfl (le_max_left _ _)
      (by simp only [Tree.depth]; omega) (fun rest => if_pos (hsafe _)) (Nat.succ_pos 13) hyields (fun rest => ?_) fun room rest c hdepth _ _ hno => ?_
    · simp [Follows,currentKind,hq]
    · simp only [Tree.depth,List.append_assoc,List.cons_append,List.nil_append] at hdepth hno ⊢
      obtain ⟨c₁,hc₁,hrun⟩ := hindex (by omega : i.depth < room) hno.tail.tail
      refine ⟨c₁,fun hclear => hc₁ ((hclear.tail le_rfl).tail le_rfl),?_⟩
      simp [parseLink,hsafe,hrun]

/-! ### Arguments -/

/-- Behind a name at the front there is neither another name nor a colon, as before an argument that is named or goes out. -/
def Unnamed (ts : List Token) : Prop := currentKind ts = .identifier → peekKind ts 1 ≠ .identifier ∧ peekKind ts 1 ≠ .colon

theorem Tree.unnamed (e : Tree) : e.Meets → e.Plain → ∀ t rest, t.kind ≠ .identifier → t.kind ≠ .colon → Unnamed (e.tokens ++ t :: rest) := by
  have hopener : ∀ {o : Token} {ts : List Token}, o.kind ≠ .identifier → Unnamed (o :: ts) := fun ho hk => absurd hk ho
  induction e using Tree.rec (motive_2 := fun _ => True) with
  | single t => exact fun _ _ u rest hname hcolon _ => ⟨hname,hcolon⟩
  | parenthesized o e c => exact fun hm _ t rest _ _ => hopener (by rw [hm.1]; decide)
  | prefixed op e =>
    intro hm _ t rest _ _
    exact hopener (by intro h; have hop := hm.1; rw [h] at hop; exact absurd hop (by decide))
  | postfixed e op ih =>
    intro hm hp t rest _ _
    rw [Tree.tokens,List.append_assoc]
    exact ih hm.2.1 hp op _ (by rcases hm.1 with h | h <;> rw [h] <;> decide) (by rcases hm.1 with h | h <;> rw [h] <;> decide)
  | member e dot name ih =>
    intro hm hp t rest _ _
    rw [Tree.tokens,List.append_assoc]
    exact ih hm.2.2.1 hp dot _ (by rcases hm.1 with h | h <;> rw [h] <;> decide) (by rcases hm.1 with h | h <;> rw [h] <;> decide)
  | call e types o arguments c ih =>
    intro hm hp t rest _ _
    rw [Tree.tokens,hp.2.1,List.append_nil,List.append_assoc,List.append_assoc]
    exact ih hm.2.2.1 hp.1 o _ (by rw [hm.1]; decide) (by rw [hm.1]; decide)
  | subscript e o i c ih =>
    intro hm hp t rest _ _
    rw [Tree.tokens,List.append_assoc,List.append_assoc,List.append_assoc]
    rcases isOpener_cases hm.1 with ⟨b,rfl,hb⟩ | ⟨q,b,rfl,hq,-⟩
    · exact ih hm.2.2.1 hp.1 b _ (by rw [hb]; decide) (by rw [hb]; decide)
    · exact ih hm.2.2.1 hp.1 q _ (by rw [hq]; decide) (by rw [hq]; decide)
  | operation l op r ih =>
    intro hm hp t rest _ _
    obtain ⟨-,-,-,-,-,-,hname,-,hcolon⟩ := isOperation_ne hm.1
    rw [Tree.tokens,List.append_assoc]
    exact ih hm.2.1 hp.1 op _ hname hcolon
  | nullCoalesce l q q' r ih =>
    intro hm hp t rest _ _
    rw [Tree.tokens,List.append_assoc]
    exact ih hm.2.1 hp.1 q _ (by rw [hm.1.1]; decide) (by rw [hm.1.1]; decide)
  | ternary e q a colon b ih =>
    intro hm hp t rest _ _
    rw [Tree.tokens,List.append_assoc,List.append_assoc]
    exact ih hm.2.1 hp.1 q _ (by rw [hm.1.1]; decide) (by rw [hm.1.1]; decide)
  | embed | arrayLiteral | genericName | outArgument | namedArgument => exact fun _ hp => hp.elim
  | empty | last | trailing | more => trivial

theorem parseArgument_eq {parse : ℕ → Parser} (h : Unnamed ts) : parseArgument parse ⟨ts,c⟩ = parse 1 ⟨ts,c⟩ := by
  match ts, h with
  | [], _ | [_], _ => rfl
  | t :: u :: rest, h =>
    by_cases hname : t.kind = .identifier
    · obtain ⟨hout,hcolon⟩ := h hname
      have hout : u.kind ≠ .identifier := hout
      have hcolon : u.kind ≠ .colon := hcolon
      simp [parseArgument,hout,hcolon]
    · simp [parseArgument,atContextual,hname]

theorem plain_strength (hm : e.Meets) (hp : e.Plain) : 1 ≤ e.strength := by
  cases e with
  | operation l op r => exact (of_decide_eq_true hm.1).1
  | embed | arrayLiteral | genericName | outArgument | namedArgument => exact hp.elim
  | _ => simp [Tree.strength,Precedence.nullCoalesce]

theorem argument_reads (c : Bool) (h : e.Reads) (hm : e.Meets) (hp : e.Plain) (hdepth : e.depth < room)
    (ht : t.kind = .closeParenthesis ∨ t.kind = .comma) (hno : NoTypeArguments (e.tokens ++ t :: rest)) :
    ∃ c', (Clear room (e.tokens ++ t :: rest) → c' = c) ∧
      parseArgument (parsePrecedence room) ⟨e.tokens ++ t :: rest,c⟩ = some (e,⟨t :: rest,c'⟩) := by
  have hne : t.kind ≠ .identifier ∧ t.kind ≠ .colon ∧ t.kind ≠ .stringLiteral ∧ infixPrecedence t.kind = 0 := by
    rcases ht with h | h <;> rw [h] <;> decide
  rw [parseArgument_eq (e.unnamed hm hp t rest hne.1 hne.2.1)]
  exact value_reads c h hdepth (plain_strength hm hp) hne.2.2.2 hne.1 hne.2.2.1 hno

/-- Reading the tokens of items is going on at their closer. -/
def Items.Reads (items : Items) : Prop :=
  items ≠ .empty → ∀ left room closer rest c, items.depth ≤ room → items.tokens.length ≤ left → closer.kind = SyntaxKind.closeParenthesis →
    NoTypeArguments (items.tokens ++ closer :: rest) →
    ∃ c', (Clear room (items.tokens ++ closer :: rest) → c' = c) ∧
      parseItems (parseArgument (parsePrecedence room)) .closeParenthesis left ⟨items.tokens ++ closer :: rest,c⟩ = some (items,⟨closer :: rest,c'⟩)

theorem Items.head {items : Items} (hm : items.Meets) (hp : items.Plain) (hne : items ≠ .empty) :
    ∃ t ts, items.tokens = t :: ts ∧ starts t.kind = true := by
  cases items with
  | empty => exact absurd rfl hne
  | last e => exact e.head hm hp
  | trailing e comma =>
    obtain ⟨t,ts,htokens,ht⟩ := e.head hm.1 hp
    exact ⟨t,ts ++ [comma],by rw [Items.tokens,htokens,List.cons_append],ht⟩
  | more e comma others =>
    obtain ⟨t,ts,htokens,ht⟩ := e.head hm.1 hp.1
    exact ⟨t,ts ++ comma :: others.tokens,by rw [Items.tokens,htokens,List.cons_append],ht⟩

theorem last_reads (h : e.Reads) (hm : e.Meets) (hp : e.Plain) : (Items.last e).Reads := by
  intro _ left room closer rest c hdepth hleft hcloser hno
  obtain ⟨t,ts,htokens,-⟩ := e.head hm hp
  simp only [Items.tokens,Items.depth] at hdepth hleft hno ⊢
  rw [htokens,List.length_cons] at hleft
  obtain ⟨left,rfl⟩ : ∃ k, left = k + 1 := ⟨left - 1,by omega⟩
  obtain ⟨c₁,hc₁,hrun⟩ := argument_reads c h hm hp (by omega : e.depth < room) (.inl hcloser) hno
  refine ⟨c₁,hc₁,?_⟩
  simp [parseItems,hrun,expect,hcloser]

theorem trailing_reads {comma : Token} (h : e.Reads) (hm : e.Meets) (hp : e.Plain) (hcomma : comma.kind = .comma) : (Items.trailing e comma).Reads := by
  intro _ left room closer rest c hdepth hleft hcloser hno
  simp only [Items.tokens,Items.depth,List.append_assoc,List.cons_append,List.nil_append,List.length_append,List.length_cons] at hdepth hleft hno ⊢
  obtain ⟨left,rfl⟩ : ∃ k, left = k + 1 := ⟨left - 1,by omega⟩
  obtain ⟨c₁,hc₁,hrun⟩ := argument_reads c h hm hp (by omega : e.depth < room) (.inr hcomma) hno
  refine ⟨c₁,hc₁,?_⟩
  simp [parseItems,hrun,expect,hcomma,currentKind,hcloser]

theorem more_reads {comma : Token} {others : Items} (h : e.Reads) (hm : e.Meets) (hp : e.Plain) (hcomma : comma.kind = .comma) (ho : others.Reads)
    (hom : others.Meets) (hop : others.Plain) (hne : others ≠ .empty) : (Items.more e comma others).Reads := by
  intro _ left room closer rest c hdepth hleft hcloser hno
  simp only [Items.tokens,Items.depth,List.append_assoc,List.cons_append,List.length_append,List.length_cons] at hdepth hleft hno ⊢
  obtain ⟨left,rfl⟩ : ∃ k, left = k + 1 := ⟨left - 1,by omega⟩
  obtain ⟨c₁,hc₁,hrun₁⟩ := argument_reads c h hm hp (by omega : e.depth < room) (.inr hcomma) hno
  obtain ⟨c₂,hc₂,hrun₂⟩ := ho hne left room closer rest c₁ (by omega) (by omega) hcloser (hno.append rfl).tail
  refine ⟨c₂,fun hclear => ?_,?_⟩
  · rw [hc₂ ((hclear.append le_rfl).tail le_rfl),hc₁ hclear]
  · obtain ⟨t,ts,htokens,ht⟩ := Items.head hom hop hne
    have hopen : currentKind (others.tokens ++ closer :: rest) ≠ .closeParenthesis := by
      rw [htokens]
      exact (starts_ne ht).2.2
    simp [parseItems,hrun₁,expect,hcomma,hopen,hrun₂]

theorem call_reads {types : List Token} {o closer : Token} {arguments : Items} (he : e.Reads) (harguments : arguments.Reads) (hm : arguments.Meets)
    (hp : arguments.Plain) (htypes : types = []) (ho : o.kind = .openParenthesis) (hcloser : closer.kind = .closeParenthesis)
        (hyields : 14 ≤ e.yields) :
    (Tree.call e types o arguments closer).Reads := by
  subst htypes
  have hq : o.kind ≠ .question := by rw [ho]; decide
  refine reads_link (o :: arguments.tokens ++ [closer]) he (by simp only [Tree.tokens,List.append_assoc,List.append_nil]) rfl (le_max_left _ _)
    (by simp only [Tree.depth]; omega) (fun rest => (precedenceAt_cons hq).trans (by rw [ho]; rfl)) (Nat.succ_pos 13) hyields (fun rest => ?_)
    fun room rest c hdepth _ _ hno => ?_
  · simp [Follows,currentKind,ho]
  · simp only [Tree.depth,List.append_assoc,List.cons_append,List.nil_append] at hdepth hno ⊢
    have hitems : ∃ c', (Clear room (arguments.tokens ++ closer :: rest) → c' = c) ∧
        parseEnclosed (parseArgument (parsePrecedence room)) .closeParenthesis ⟨arguments.tokens ++ closer :: rest,c⟩ =
          some (arguments,closer,⟨rest,c'⟩) := by
      by_cases hempty : arguments = .empty
      · subst hempty
        exact ⟨c,fun _ => rfl,by simp [parseEnclosed,Items.tokens,expect,hcloser]⟩
      · obtain ⟨t,ts,htokens,ht⟩ := Items.head hm hp hempty
        obtain ⟨c₁,hc₁,hrun⟩ := harguments hempty (arguments.tokens ++ closer :: rest).length room closer rest c (by omega)
          (by rw [List.length_append]; omega) hcloser hno.tail
        have hopen : expect .closeParenthesis (arguments.tokens ++ closer :: rest) = none := by
          rw [htokens]
          exact if_neg (starts_ne ht).2.2
        refine ⟨c₁,hc₁,?_⟩
        simp only [parseEnclosed,hopen,hrun]
        simp only [expect,if_pos hcloser]
    obtain ⟨c₁,hc₁,hrun⟩ := hitems
    obtain ⟨hsafe,hcoalesce,hseparated⟩ := not_question (arguments.tokens ++ closer :: rest) hq
    exact ⟨c₁,fun hclear => hc₁ (hclear.tail le_rfl),by simp [parseLink,hsafe,hcoalesce,hseparated,ho,parseCall,hrun]⟩

theorem Tree.reads (e : Tree) : e.Meets → e.Plain → e.Reads := by
  induction e using Tree.rec (motive_2 := fun items => items.Meets → items.Plain → items.Reads) with
  | single t => exact fun hm _ => single_reads hm
  | parenthesized o e c ih => exact fun hm hp => parenthesized_reads (ih hm.2.2.1 hp) hm.1 hm.2.1 hm.2.2.2
  | prefixed op e ih =>
    intro hm hp
    have := strength_le_yields (e := e) (le_trans (by decide) hm.2.2)
    exact prefixed_reads (ih hm.2.1 hp) hm.1 hm.2.2 (by have := hm.2.2; omega)
  | postfixed e op ih => exact fun hm hp => postfixed_reads (ih hm.2.1 hp) hm.1 hm.2.2
  | call e types o arguments c ih iha =>
    exact fun hm hp => call_reads (ih hm.2.2.1 hp.1) (iha hm.2.2.2.2 hp.2.2) hm.2.2.2.2 hp.2.2 hp.2.1 hm.1 hm.2.1 hm.2.2.2.1
  | subscript e o i c ih ihi =>
    exact fun hm hp => subscript_reads (ih hm.2.2.1 hp.1) (ihi hm.2.2.2.2.1 hp.2) hm.1 hm.2.1 hm.2.2.2.1 hm.2.2.2.2.2
  | member e dot name ih => exact fun hm hp => member_reads (ih hm.2.2.1 hp) hm.1 hm.2.1 hm.2.2.2
  | operation l op r ihl ihr => exact fun hm hp => operation_reads (ihl hm.2.1 hp.1) (ihr hm.2.2.2.1 hp.2) hm.1 hm.2.2.1 hm.2.2.2.2
  | nullCoalesce l q q' r ihl ihr =>
    exact fun hm hp => nullCoalesce_reads (ihl hm.2.1 hp.1) (ihr hm.2.2.2.1 hp.2) hm.1.1 hm.1.2.1 hm.1.2.2 hm.2.2.1 hm.2.2.2.2
  | ternary e q a colon b ihe iha ihb =>
    exact fun hm hp => ternary_reads (ihe hm.2.1 hp.1) (iha hm.2.2.2.1.1 hp.2.1) (ihb hm.2.2.2.2.1 hp.2.2) (a.head hm.2.2.2.1.1 hp.2.1) hm.1.1 hm.1.2
      hm.2.2.1 hm.2.2.2.1.2 hm.2.2.2.2.2
  | embed | arrayLiteral | genericName | outArgument | namedArgument => exact fun _ hp => hp.elim
  | empty => exact fun hne => absurd rfl hne
  | last e ih =>
    rename_i hm hp
    exact last_reads (ih hm hp) hm hp
  | trailing e comma ih =>
    rename_i hm hp
    exact trailing_reads (ih hm.1 hp) hm.1 hp hm.2
  | more e comma others ih iho =>
    rename_i hm hp
    exact more_reads (ih hm.1 hp.1) hm.1 hp.1 hm.2.1 (iho hm.2.2.1 hp.2) hm.2.2.1 hp.2 hm.2.2.2

end

/-! ### Type arguments need a `>` -/

/-- No token is a `>` or an operator that starts with one. -/
def NoAngle (ts : List Token) : Prop := ∀ t ∈ ts, atClosingAngle [t] = false

instance (ts : List Token) : Decidable (NoAngle ts) := inferInstanceAs (Decidable (∀ t ∈ ts, atClosingAngle [t] = false))

theorem NoAngle.suffix {ts s : List Token} (h : NoAngle ts) (hs : s <:+ ts) : NoAngle s := fun t ht => h t (hs.subset ht)

theorem NoAngle.not_closing {ts : List Token} (h : NoAngle ts) : expectClosingAngle ts = none := by
  match ts, h with
  | [], _ => rfl
  | t :: ts, h =>
    have ht : atClosingAngle [t] = false := h t (List.mem_cons_self)
    have hgreater : t.kind ≠ .greater := fun hk => by simp [atClosingAngle,currentKind,hk] at ht
    have hts : atClosingAngle (t :: ts) = false := ht
    simp [expectClosingAngle,hgreater,hts]

theorem skipAbandonedTokens_suffix (depth openConditionals : ℕ) (ts : List Token) : skipAbandonedTokens depth openConditionals ts <:+ ts := by
  fun_induction skipAbandonedTokens depth openConditionals ts <;>
    first
    | exact List.suffix_rfl
    | exact List.nil_suffix
    | (rename_i ih; exact ih.trans (List.suffix_cons _ _))
    | (rename_i ih; exact ih.trans ((List.suffix_cons _ _).trans (List.suffix_cons _ _)))

theorem parseTypeSuffixes_suffix (room : ℕ) (ts : List Token) : (parseTypeSuffixes room ts).1 <:+ ts := by
  fun_induction parseTypeSuffixes room ts <;>
    first
    | exact List.suffix_rfl
    | exact List.nil_suffix
    | (rename_i ih; exact ih.trans (List.suffix_cons _ _))
    | (rename_i ih; exact ih.trans ((List.suffix_cons _ _).trans (List.suffix_cons _ _)))

section
variable {parseType : Bool → List Token → Reading} {limited : Bool} {ts : List Token}

theorem typesAfter_suffix (hparse : ∀ limited ts, NoAngle ts → (parseType limited ts).rest <:+ ts) :
    ∀ {left : ℕ} {reading : Reading}, NoAngle reading.rest → (typesAfter parseType left reading).rest <:+ reading.rest := by
  intro left
  induction left with
  | zero => exact fun _ => List.suffix_rfl
  | succ left ih =>
    intro reading hangle
    have htail : reading.rest.drop 1 <:+ reading.rest := List.drop_suffix _ _
    unfold typesAfter
    split
    · split
      · exact htail
      · have hnext := hparse reading.limited _ (hangle.suffix htail)
        generalize parseType reading.limited (reading.rest.drop 1) = next at hnext ⊢
        have hlast : ∀ clean carried, (typesAfter parseType left ⟨next.rest,clean,next.limited,carried⟩).rest <:+ next.rest :=
          fun clean carried => @ih ⟨next.rest,clean,next.limited,carried⟩ (hangle.suffix (hnext.trans htail))
        exact ((hlast _ _).trans hnext).trans htail
    · exact List.suffix_rfl

theorem parseTypeArgumentList_unclean (hparse : ∀ limited ts, NoAngle ts → (parseType limited ts).rest <:+ ts) (hangle : NoAngle ts) :
    (parseTypeArgumentList parseType limited ts).clean = false := by
  have hinner : NoAngle (ts.drop 1) := hangle.suffix (List.drop_suffix _ _)
  have hnone : expectClosingAngle (if atClosingAngle (ts.drop 1) || (ts.drop 1).isEmpty then (⟨ts.drop 1,true,limited,false⟩ : Reading)
      else typesAfter parseType (ts.drop 1).length (parseType limited (ts.drop 1))).rest = none := by
    split
    · exact hinner.not_closing
    · have hfirst := hparse limited _ hinner
      exact ((hinner.suffix hfirst).suffix (typesAfter_suffix hparse (hinner.suffix hfirst))).not_closing
  simp only [parseTypeArgumentList]
  rw [hnone]

theorem parseNamedType_suffix (hparse : ∀ limited ts, NoAngle ts → (parseType limited ts).rest <:+ ts) (hangle : NoAngle ts) :
    (parseNamedType parseType limited ts).rest <:+ ts := by
  unfold parseNamedType
  simp only
  generalize hnamed : (if currentKind ts = .identifier && peekKind ts 1 = .dot && peekKind ts 2 = .identifier then ts.drop 2 else ts) = named
  have hsuffix : named <:+ ts := by
    rw [← hnamed]
    split
    · exact List.drop_suffix _ _
    · exact List.suffix_rfl
  generalize hrest : (if isTypeStart (currentKind named) then named.drop 1 else named) = rest
  have hsuffix' : rest <:+ ts := by
    rw [← hrest]
    split
    · exact (List.drop_suffix _ _).trans hsuffix
    · exact hsuffix
  rw [parseTypeArgumentList_unclean hparse (hangle.suffix hsuffix')]
  split <;> exact hsuffix'

theorem parseTypeHead_suffix (hparse : ∀ limited ts, NoAngle ts → (parseType limited ts).rest <:+ ts) (hangle : NoAngle ts) :
    (parseTypeHead parseType limited ts).rest <:+ ts := by
  have htail : ts.drop 1 <:+ ts := List.drop_suffix _ _
  have hinner := (hparse limited _ (hangle.suffix htail)).trans htail
  unfold parseTypeHead
  split
  · simp only
    split
    · exact (List.drop_suffix _ _).trans hinner
    · exact hinner
  · exact parseNamedType_suffix hparse hangle

end

theorem parseType_suffix (room : ℕ) : ∀ limited ts, NoAngle ts → (parseType room limited ts).rest <:+ ts := by
  induction room with
  | zero => exact fun _ ts _ => skipAbandonedTokens_suffix 0 0 ts
  | succ room ih =>
    intro limited ts hangle
    have hhead : (parseTypeHead (parseType room) limited ts).rest <:+ ts := parseTypeHead_suffix ih hangle
    have hsuffix := (parseTypeSuffixes_suffix room _).trans hhead
    simp only [parseType]
    split <;> exact hsuffix

theorem NoAngle.noTypeArguments {ts : List Token} (h : NoAngle ts) : NoTypeArguments ts := by
  intro s hs room
  have hunclean : (typeArgumentsAhead room s).clean = false := parseTypeArgumentList_unclean (parseType_suffix room) (h.suffix hs)
  simp [atGenericSuffix,hunclean]

/-! ### Expressions and their table -/

/-- The parser gives back every tree that meets the table from its tokens, and reports nothing but a depth limit that a look at type arguments ran
into. Every tree it gives meets the table, and its tokens are the ones that were read. -/
theorem parseExpression_table :
    (∀ (e : Tree) (rest : List Token) (nestingDepth : ℕ), e.Meets → e.Plain → nestingDepth + e.depth < Nesting.maximumDepth →
      precedenceAt rest = 0 → Follows rest → (∀ t ∈ rest, inExpressions t.kind = true) → NoTypeArguments (e.tokens ++ rest) →
      ∃ carried, parseExpression nestingDepth ⟨e.tokens ++ rest,false⟩ = some (e,⟨rest,carried⟩) ∧
        (carried = true → ∃ s, s <:+ e.tokens ++ rest ∧ currentKind s = .less ∧
          ∃ left ≤ Nesting.maximumDepth - nestingDepth, (typeArgumentsAhead left s).carried = true)) ∧
    ∀ (s s' : State) (e : Tree) (nestingDepth : ℕ), (∀ t ∈ s.ts, inExpressions t.kind = true) → NoTypeArguments s.ts →
      parseExpression nestingDepth s = some (e,s') → s.ts = e.tokens ++ s'.ts ∧ e.Meets := by
  refine ⟨fun e rest nestingDepth hm hp hdepth hzero hfollows _ hno => ?_,fun s s' e nestingDepth _ hno hrun => ?_⟩
  · obtain ⟨c,hclear,hrun⟩ := operand 1 false (e.reads hm hp) (by omega : e.depth < Nesting.maximumDepth - nestingDepth) (plain_strength hm hp)
      (.inr hzero) (by rw [hzero]; exact Nat.zero_le _) hfollows hno
    refine ⟨c,hrun,fun hcarried => ?_⟩
    by_contra hnone
    push Not at hnone
    have hfalse := hclear fun s hs hk left hle => by simpa using hnone s hs hk left hle
    rw [hcarried] at hfalse
    cases hfalse
  · exact ((parsePrecedence_sound _).1.item s e s' hno hrun)

namespace Tree

def word (text : String) : Token := ⟨.identifier,text,false⟩
def mark (kind : SyntaxKind) (text : String) : Token := ⟨kind,text,false⟩
def grouped : ℕ → Tree → Tree
  | 0, e => e
  | n + 1, e => .parenthesized (mark .openParenthesis "(") (grouped n e) (mark .closeParenthesis ")")

def compared : Tree :=
  .call (.single (word "f")) [] (mark .openParenthesis "(")
    (.more (.operation (.operation (.single (word "a")) (mark .less "<") (.single (word "b"))) (mark .less "<") (.single (word "c"))) (mark .comma ",")
      (.last (grouped 3 (.single (word "d"))))) (mark .closeParenthesis ")")

theorem compared_meets : compared.Meets ∧ compared.Plain := by
  simp [compared,grouped,Meets,Items.Meets,Plain,Items.Plain,word,mark,strength,yields,isOperation,rightLevel,infixPrecedence,isAssignmentOperator]

end Tree

theorem compared_given : Tree.compared.Meets ∧ Tree.compared.Plain ∧ 494 + Tree.compared.depth < Nesting.maximumDepth ∧
    ∃ carried, parseExpression 494 ⟨Tree.compared.tokens,false⟩ = some (Tree.compared,⟨[],carried⟩) :=
  ⟨Tree.compared_meets.1,Tree.compared_meets.2,by decide,
    (parseExpression_table.1 Tree.compared [] 494 Tree.compared_meets.1 Tree.compared_meets.2 (by decide) rfl ⟨by decide,by decide⟩ (by decide)
      (NoAngle.noTypeArguments (by decide))).imp fun _ h => h.1⟩

/-- A limit on types is reported where six levels are left, no more are needed, and no type is written. -/
theorem not_parseExpression_quiet : Tree.compared.Meets ∧ Tree.compared.Plain ∧ 494 + Tree.compared.depth < Nesting.maximumDepth ∧
    NoTypeArguments Tree.compared.tokens ∧ (parseExpression 494 ⟨Tree.compared.tokens,false⟩).map (fun r => r.2.carried) = some true :=
  ⟨Tree.compared_meets.1,Tree.compared_meets.2,by decide,NoAngle.noTypeArguments (by decide),by decide +kernel⟩

end Ens.Parse
