import Mathlib.Data.List.Basic

set_option linter.all false
namespace Ens.Flow

/-- What an exiting statement must leave: the whole function, or just the enclosing branch, where `break` and `continue` also exit. -/
inductive ExitScope
  | function
  | branch
  deriving DecidableEq

structure Signature where
  isNoreturn : Bool

structure Method where
  isConstructor : Bool
  signature : Signature

inductive ArmKind
  | value
  | type
  | default

mutual

/-- An expression, with what the checker's tables say of a callee. `other` is every form whose evaluation ends the path only
through its operands. -/
inductive Expression
  | trueLiteral
  | other (operands : List Expression)
  | parenthesized (inner : Expression)
  | throwExpression (value : Expression)
  | ternary (condition thenValue elseValue : Expression)
  | switchExpression (scrutinee : Expression) (arms : List SwitchArm)
  | tryExpression (operand : Expression)
  | call (callee : Callee) (arguments : List Expression)
  | lambda (body : ArmBody)

inductive Callee
  | identifier (callable : Option Signature)
  | member (object : Expression) (method : Option Method) (callable : Option Signature)
  | other (callee : Expression)

inductive ArmBody
  | block (statements : List Statement)
  | expression (value : Expression)

inductive SwitchArm
  | arm (kind : ArmKind) (body : ArmBody)
  | error

inductive IfStatement
  | conditional (condition : Expression) (thenBranch : List Statement) (elseClause : Option ElseBody)

inductive ElseBody
  | chained (conditional : IfStatement)
  | block (statements : List Statement)

inductive ForInitializer
  | declaration (initializer : Option Expression)
  | expression (value : Expression)

inductive Statement
  | block (statements : List Statement)
  | variableDeclaration (initializer : Option Expression)
  | ifStatement (conditional : IfStatement)
  | whileStatement (condition : Expression) (body : List Statement)
  | forStatement (initializer : Option ForInitializer) (condition update : Option Expression) (body : List Statement)
  | forEachStatement (iterable : Expression) (body : List Statement)
  | breakStatement
  | continueStatement
  | returnStatement (value : Option Expression)
  | expressionStatement (value : Expression)
  | throwStatement (value : Expression)
  | rethrowStatement
  | switchStatement (scrutinee : Expression) (arms : List SwitchArm)
  | errorStatement

end

def unwrapParentheses : Expression → Expression
  | .parenthesized inner => unwrapParentheses inner
  | e => e

/-- The static target a call always runs, none for a constructor chain, an unresolved callee or a safe call. -/
def unconditionalCalleeOf : Callee → Option Signature
  | .identifier callable => callable
  | .member _ (some method) _ => if method.isConstructor then none else some method.signature
  | .member _ none callable => callable
  | .other _ => none

def isNoreturn (callee : Callee) : Bool := (unconditionalCalleeOf callee).any Signature.isNoreturn

def callNeverReturns (e : Expression) : Bool :=
  let core := match unwrapParentheses e with
    | .tryExpression operand => unwrapParentheses operand
    | core => core
  match core with
  | .call callee _ => isNoreturn callee
  | _ => false

section
variable (calls : Expression → Bool)

mutual

def neverReturnsOf : Expression → Expression → Bool
  | whole, .parenthesized inner => neverReturnsOf whole inner
  | _, .throwExpression _ => true
  | _, .ternary _ thenValue elseValue => neverReturnsOf thenValue thenValue && neverReturnsOf elseValue elseValue
  | _, .switchExpression _ arms => !arms.isEmpty && armsNeverReturn arms
  | whole, _ => calls whole

def armsNeverReturn : List SwitchArm → Bool
  | [] => true
  | .arm _ (.expression value) :: arms => neverReturnsOf value value && armsNeverReturn arms
  | _ :: _ => false

end

-- derives the equations once, for all proofs about them
attribute [local grind =] neverReturnsOf armsNeverReturn

def neverReturns (e : Expression) : Bool := neverReturnsOf calls e e

def initialValueNeverReturns : Option Expression → Bool
  | none => false
  | some value => neverReturns calls value

def forInitializerNeverReturns : Option ForInitializer → Bool
  | some (.declaration initializer) => initialValueNeverReturns calls initializer
  | some (.expression value) => neverReturns calls value
  | none => false

end

mutual

/-- Whether the statement contains a `break` that binds to the enclosing loop. Nested loops are not entered. -/
def statementContainsLoopBreak : Statement → Bool
  | .breakStatement => true
  | .block statements => blockContainsLoopBreak statements
  | .ifStatement conditional => ifContainsLoopBreak conditional
  | .switchStatement _ arms => armsContainLoopBreak arms
  | _ => false

def blockContainsLoopBreak : List Statement → Bool
  | [] => false
  | s :: statements => statementContainsLoopBreak s || blockContainsLoopBreak statements

def ifContainsLoopBreak : IfStatement → Bool
  | .conditional _ thenBranch none => blockContainsLoopBreak thenBranch
  | .conditional _ thenBranch (some (.chained conditional)) =>
    blockContainsLoopBreak thenBranch || ifContainsLoopBreak conditional
  | .conditional _ thenBranch (some (.block statements)) =>
    blockContainsLoopBreak thenBranch || blockContainsLoopBreak statements

def armsContainLoopBreak : List SwitchArm → Bool
  | [] => false
  | .arm _ (.block statements) :: arms => blockContainsLoopBreak statements || armsContainLoopBreak arms
  | _ :: arms => armsContainLoopBreak arms

end

attribute [local grind =] statementContainsLoopBreak blockContainsLoopBreak ifContainsLoopBreak armsContainLoopBreak

/-- Whether a loop's condition can never be false: a `for` that writes none, or the literal `true` in any number of parentheses. -/
def loopConditionAlwaysHolds : Option Expression → Bool
  | none => true
  | some condition => match unwrapParentheses condition with
    | .trueLiteral => true
    | _ => false

def loopNeverEnds (condition : Option Expression) (body : List Statement) : Bool :=
  loopConditionAlwaysHolds condition && !blockContainsLoopBreak body

section
variable (calls : Expression → Bool) (scope : ExitScope)

mutual

def statementTerminates : Statement → Bool
  | .returnStatement _ => true
  | .throwStatement _ => true
  | .rethrowStatement => true
  | .breakStatement => decide (scope = .branch)
  | .continueStatement => decide (scope = .branch)
  | .block statements => blockTerminates statements
  | .ifStatement conditional => ifTerminates conditional
  | .switchStatement _ arms => !arms.isEmpty && armsTerminate arms
  -- A break or continue inside a nested loop binds to that loop, so only a proven-infinite loop exits here.
  | .whileStatement condition body => loopNeverEnds (some condition) body
  | .forStatement initializer condition _ body => forInitializerNeverReturns calls initializer || loopNeverEnds condition body
  | .variableDeclaration initializer => initialValueNeverReturns calls initializer
  | .expressionStatement value => neverReturns calls value
  | .forEachStatement _ _ => false
  | .errorStatement => false

def blockTerminates : List Statement → Bool
  | [] => false
  | s :: statements => statementTerminates s || blockTerminates statements

def ifTerminates : IfStatement → Bool
  | .conditional _ _ none => false
  | .conditional _ thenBranch (some (.chained conditional)) => blockTerminates thenBranch && ifTerminates conditional
  | .conditional _ thenBranch (some (.block statements)) => blockTerminates thenBranch && blockTerminates statements

/-- `armTerminates` of every arm. Exhaustiveness is checked separately, so a switch exits when every arm exits. -/
def armsTerminate : List SwitchArm → Bool
  | [] => true
  | .arm _ (.block statements) :: arms => blockTerminates statements && armsTerminate arms
  | .arm _ (.expression value) :: arms => neverReturns calls value && armsTerminate arms
  | .error :: _ => false

end

attribute [local grind =] statementTerminates blockTerminates ifTerminates armsTerminate
end

end Ens.Flow

/-! ## Runs of statement trees

A run is followed up to the place it ends in: the end of the tree, a `break` or `continue` that binds outside it, or the place
an error or a `return` leaves to. A run that goes on forever ends in none.
-/
namespace Ens.Flow

/-- Where a run of a tree ends. `left` is what a `return`, a thrown error and a panic leave through. -/
inductive Ending
  | completes
  | gives (holds : Bool)
  | broke
  | continued
  | left
  deriving DecidableEq

namespace Ending

def abrupt : Ending → Bool
  | completes => false
  | gives _ => false
  | _ => true

def discarded : Ending → Ending
  | gives _ => completes
  | r => r

/-- A block that stands where a value is read gives some value at its end. -/
def valued (holds : Bool) : Ending → Ending
  | completes => gives holds
  | r => r

end Ending

inductive Piece
  | expression (e : Expression)
  | optionalValue (e : Option Expression)
  | operands (es : List Expression)
  | arm (a : SwitchArm)
  | statement (s : Statement)
  | statements (ss : List Statement)
  | conditional (c : IfStatement)
  | loop (condition update : Option Expression) (body : List Statement)
  | items (body : List Statement)

def Callee.operands : Callee → List Expression
  | .identifier _ => []
  | .member object _ _ => [object]
  | .other callee => [callee]

def initialized : Option ForInitializer → Option Expression
  | none => none
  | some (.declaration initializer) => initializer
  | some (.expression value) => some value

open Piece Ending

/-- The runs of a tree. A condition may hold or not on each evaluation, the literal `true` apart. A switch runs one of its arms,
since a switch that misses a value is refused, and a call of a `noreturn` target gives no value. -/
inductive Run : Piece → Ending → Prop
  | trueLiteral : Run (expression .trueLiteral) (gives true)
  | otherGives {es b} : Run (operands es) completes → Run (expression (.other es)) (gives b)
  | otherEnds {es r} : Run (operands es) r → r.abrupt → Run (expression (.other es)) r
  | parenthesized {e r} : Run (expression e) r → Run (expression (.parenthesized e)) r
  | thrown {e b} : Run (expression e) (gives b) → Run (expression (.throwExpression e)) left
  | thrownEnds {e r} : Run (expression e) r → r.abrupt → Run (expression (.throwExpression e)) r
  | ternary {c t f b r} : Run (expression c) (gives b) → Run (expression (cond b t f)) r → Run (expression (.ternary c t f)) r
  | ternaryEnds {c t f r} : Run (expression c) r → r.abrupt → Run (expression (.ternary c t f)) r
  | switched {e arms a b v r} : Run (expression e) (gives b) → a ∈ arms → Run (arm a) r →
      Run (expression (.switchExpression e arms)) (r.valued v)
  | switchedEnds {e arms r} : Run (expression e) r → r.abrupt → Run (expression (.switchExpression e arms)) r
  | tried {e r} : Run (expression e) r → Run (expression (.tryExpression e)) r
  | callGives {callee es b} : Run (operands (callee.operands ++ es)) completes → isNoreturn callee = false →
      Run (expression (.call callee es)) (gives b)
  | callLeaves {callee es} : Run (operands (callee.operands ++ es)) completes → Run (expression (.call callee es)) left
  | callEnds {callee es r} : Run (operands (callee.operands ++ es)) r → r.abrupt → Run (expression (.call callee es)) r
  -- The body of a lambda runs where it is called, not where it is written.
  | closure {body b} : Run (expression (.lambda body)) (gives b)
  | absent : Run (optionalValue none) (gives true)
  | present {e r} : Run (expression e) r → Run (optionalValue (some e)) r
  | noOperands : Run (operands []) completes
  | operand {e es b r} : Run (expression e) (gives b) → Run (operands es) r → Run (operands (e :: es)) r
  | operandEnds {e es r} : Run (expression e) r → r.abrupt → Run (operands (e :: es)) r
  -- The right side of `&&` and what follows `?.` may not be evaluated.
  | operandSkipped {e es r} : Run (operands es) r → Run (operands (e :: es)) r
  | blockArm {k ss r} : Run (statements ss) r → Run (arm (.arm k (.block ss))) r
  | valueArm {k e r} : Run (expression e) r → Run (arm (.arm k (.expression e))) r
  | errorArm : Run (arm .error) completes
  | inBlock {ss r} : Run (statements ss) r → Run (statement (.block ss)) r
  | declared {e r} : Run (optionalValue e) r → Run (statement (.variableDeclaration e)) r.discarded
  | evaluated {e r} : Run (expression e) r → Run (statement (.expressionStatement e)) r.discarded
  | ifArm {c r} : Run (conditional c) r → Run (statement (.ifStatement c)) r
  | whileLoop {c ss r} : Run (loop (some c) none ss) r → Run (statement (.whileStatement c ss)) r
  | forLoop {i c u ss b r} : Run (optionalValue (initialized i)) (gives b) → Run (loop c u ss) r → Run (statement (.forStatement i c u ss)) r
  | forEnds {i c u ss r} : Run (optionalValue (initialized i)) r → r.abrupt → Run (statement (.forStatement i c u ss)) r
  | forEachLoop {e ss b r} : Run (expression e) (gives b) → Run (items ss) r → Run (statement (.forEachStatement e ss)) r
  | forEachEnds {e ss r} : Run (expression e) r → r.abrupt → Run (statement (.forEachStatement e ss)) r
  | breaks : Run (statement .breakStatement) broke
  | continues : Run (statement .continueStatement) continued
  | returns {e b} : Run (optionalValue e) (gives b) → Run (statement (.returnStatement e)) left
  | returnEnds {e r} : Run (optionalValue e) r → r.abrupt → Run (statement (.returnStatement e)) r
  | throws {e b} : Run (expression e) (gives b) → Run (statement (.throwStatement e)) left
  | throwEnds {e r} : Run (expression e) r → r.abrupt → Run (statement (.throwStatement e)) r
  | rethrows : Run (statement .rethrowStatement) left
  | switchArm {e arms a b r} : Run (expression e) (gives b) → a ∈ arms → Run (arm a) r →
      Run (statement (.switchStatement e arms)) r.discarded
  | switchEnds {e arms r} : Run (expression e) r → r.abrupt → Run (statement (.switchStatement e arms)) r
  | nothing : Run (statement .errorStatement) completes
  | noStatements : Run (statements []) completes
  | next {s ss r} : Run (statement s) completes → Run (statements ss) r → Run (statements (s :: ss)) r
  | ends {s ss r} : Run (statement s) r → r.abrupt → Run (statements (s :: ss)) r
  | ifEnds {c ss e r} : Run (expression c) r → r.abrupt → Run (conditional (.conditional c ss e)) r
  | thenBranch {c ss e r} : Run (expression c) (gives true) → Run (statements ss) r → Run (conditional (.conditional c ss e)) r
  | noElse {c ss} : Run (expression c) (gives false) → Run (conditional (.conditional c ss none)) completes
  | chained {c ss d r} : Run (expression c) (gives false) → Run (conditional d) r →
      Run (conditional (.conditional c ss (some (.chained d)))) r
  | elseBranch {c ss ss' r} : Run (expression c) (gives false) → Run (statements ss') r →
      Run (conditional (.conditional c ss (some (.block ss')))) r
  | loopDone {c u ss} : Run (optionalValue c) (gives false) → Run (loop c u ss) completes
  | loopEnds {c u ss r} : Run (optionalValue c) r → r.abrupt → Run (loop c u ss) r
  | loopBroke {c u ss} : Run (optionalValue c) (gives true) → Run (statements ss) broke → Run (loop c u ss) completes
  | loopLeft {c u ss} : Run (optionalValue c) (gives true) → Run (statements ss) left → Run (loop c u ss) left
  | loopUpdate {c u ss r r'} : Run (optionalValue c) (gives true) → Run (statements ss) r → r = completes ∨ r = continued →
      Run (optionalValue u) r' → r'.abrupt → Run (loop c u ss) r'
  | loopAgain {c u ss r b r'} : Run (optionalValue c) (gives true) → Run (statements ss) r → r = completes ∨ r = continued →
      Run (optionalValue u) (gives b) → Run (loop c u ss) r' → Run (loop c u ss) r'
  | itemsDone {ss} : Run (items ss) completes
  | itemsBroke {ss} : Run (statements ss) broke → Run (items ss) completes
  | itemsLeft {ss} : Run (statements ss) left → Run (items ss) left
  | itemsAgain {ss r r'} : Run (statements ss) r → r = completes ∨ r = continued → Run (items ss) r' → Run (items ss) r'

end Ens.Flow
