import Mathlib.Data.List.Basic

/-! # Constant values

What the literals and operators of a constant expression come to, and how a value fits the type its constant is declared with.
-/
namespace Ens.Constants
variable {F : Type}

abbrev Name := List Char

structure Declared where
  modulePath : Name
  name : Name
  deriving DecidableEq

structure FieldId where
  owner : Declared
  isStatic : Bool
  name : Name
  deriving DecidableEq

inductive PrimitiveKind
  | void | bool | char | byte | short | int | long | ushort | uint | ulong | float | double
  deriving DecidableEq

inductive FieldType
  | string
  | primitive (kind : PrimitiveKind)
  | typeParam
  | error
  | other
  deriving DecidableEq

inductive Literal
  | integer (text : Name)
  | float (text : Name)
  | string (text : Name)
  | char (text : Name)
  | bool (value : Bool)
  | null
  | other

inductive Operator
  | plus | minus | star | slash | percent | other
  deriving DecidableEq

inductive Runtime
  | call | new | arrayLiteral | structLiteral | interpolated | other
  | embed (folder : Bool)

inductive Expr
  | literal (token : Literal)
  | parenthesized (inner : Expr)
  | prefixed (operator : Operator) (operand : Expr)
  | binary (operator : Operator) (left right : Expr)
  | member (object : Expr) (name : Name)
  | genericName (head : Expr)
  | identifier (name : Name)
  | this
  | lambda
  | runtime (kind : Runtime) (children : List Expr)

/-! ### Values -/

inductive Kind
  | integer | float | bool | char | string
  deriving DecidableEq

inductive Value (F : Type)
  | integer (negative : Bool) (magnitude : ℕ)
  | float (value : F)
  | bool (value : Bool)
  | char (codepoint : ℕ)
  | string (text : Name)

def Value.kind : Value F → Kind
  | .integer _ _ => .integer
  | .float _ => .float
  | .bool _ => .bool
  | .char _ => .char
  | .string _ => .string

structure Machine (F : Type) where
  zero : F
  half : F
  largestFloat : F
  add : F → F → F
  sub : F → F → F
  mul : F → F → F
  div : F → F → F
  lt : F → F → Bool
  le : F → F → Bool
  eq : F → F → Bool
  ofMagnitude : ℕ → F
  integerMagnitude : Name → Option ℕ
  floatMagnitude : Name → F
  decodeString : Name → Name
  charCodepoint : Name → ℕ

inductive Problem
  | beyondEveryInteger (text : Name) (negative : Bool)
  | runtime (kind : Runtime)
  | null
  | notOperator (operator : Operator)
  | sign (operand : Kind)
  | operands (left right : Kind)
  | boolOperand
  | fractionalRemainder (left right : Kind)
  | dividesByZero
  | overflow
  | unknownHead (name : Name)
  | typeParameter (name : Name)
  | enumMember (owner : Declared) (name : Name)
  | notEnumMember (owner : Declared) (name : Name)
  | withoutStatics (owner : Declared) (name : Name)
  | memberOfValue
  | missingType (modulePath name : Name)
  | hiddenType (hidden : Declared)
  | notStaticConst (owner : Declared) (name : Name)
  | notInherited (field : FieldId)
  | typeArguments (owner : Declared) (name : Name)
  | lazyConst (field : FieldId)
  | hidden (field : FieldId)
  | typeParameterTookName (name : Name)
  | sibling (name : Name)
  | notConstant (name : Name)
  | mismatch (declared : FieldType) (given : Kind)
  | beyondFloat (kind : PrimitiveKind) (negative : Bool)
  | outsideRange (kind : PrimitiveKind)
  | cycle (read : FieldId)
  | lazyCycle (read : FieldId)

def integerConstant (negative : Bool) (magnitude : ℕ) : Value F := .integer (negative && magnitude != 0) magnitude

def floatConstant (m : Machine F) (negative : Bool) (magnitude : F) : Value F :=
  .float (if negative then m.sub m.zero magnitude else magnitude)

def ceiling : ℕ := 18446744073709551615

def evaluateLiteral (m : Machine F) : Literal → Except Problem (Value F)
  | .integer text => match m.integerMagnitude text with
    | none => .error (.beyondEveryInteger text false)
    | some magnitude => .ok (integerConstant false magnitude)
  | .float text => .ok (floatConstant m false (m.floatMagnitude text))
  | .string text => .ok (.string (m.decodeString text))
  | .char text => .ok (.char (m.charCodepoint text))
  | .bool value => .ok (.bool value)
  | .null => .error .null
  | .other => .error (.runtime .other)

def Operator.isSign : Operator → Bool
  | .plus | .minus => true
  | _ => false

def isConstantOperator : Operator → Bool
  | .plus | .minus | .star | .slash | .percent => true
  | .other => false

def unwrapParentheses : Expr → Expr
  | .parenthesized inner => unwrapParentheses inner
  | e => e

def negatedBeyond (m : Machine F) (operator : Operator) (operand : Expr) : Option Name :=
  match operator,unwrapParentheses operand with
  | .minus,.literal (.integer text) => if m.integerMagnitude text = none then some text else none
  | _,_ => none

def applySign (m : Machine F) (operator : Operator) : Value F → Except Problem (Value F)
  | .integer negative magnitude => .ok (if operator = .minus then integerConstant (!negative) magnitude else .integer negative magnitude)
  | .float value => .ok (if operator = .minus then floatConstant m true value else .float value)
  | v => .error (.sign v.kind)

def addSigned (leftNegative : Bool) (left : ℕ) (rightNegative : Bool) (right : ℕ) : Except Problem (Value F) :=
  if leftNegative = rightNegative ∨ right = 0 then
    if left > ceiling - right then .error .overflow else .ok (integerConstant leftNegative (left + right))
  else if left ≥ right then .ok (integerConstant leftNegative (left - right))
  else .ok (integerConstant rightNegative (right - left))

def combineIntegers (operator : Operator) (leftNegative : Bool) (left : ℕ) (rightNegative : Bool) (right : ℕ) :
    Except Problem (Value F) :=
  match operator with
  | .plus => addSigned leftNegative left rightNegative right
  | .minus => addSigned leftNegative left (!rightNegative && right != 0) right
  | .star =>
    if left ≠ 0 ∧ right > ceiling / left then .error .overflow
    else .ok (integerConstant (leftNegative != rightNegative) (left * right))
  | .slash => if right = 0 then .error .dividesByZero else .ok (integerConstant (leftNegative != rightNegative) (left / right))
  | _ => if right = 0 then .error .dividesByZero else .ok (integerConstant leftNegative (left % right))

def combineFloats (m : Machine F) (operator : Operator) (left right : F) : Except Problem (Value F) :=
  match operator with
  | .plus => .ok (floatConstant m false (m.add left right))
  | .minus => .ok (floatConstant m false (m.sub left right))
  | .star => .ok (floatConstant m false (m.mul left right))
  | .slash => if m.eq right m.zero then .error .dividesByZero else .ok (floatConstant m false (m.div left right))
  | _ => .error (.notOperator operator)

def Value.isNegative : Value F → Bool
  | .integer negative _ => negative
  | _ => false

def Value.magnitude : Value F → ℕ
  | .integer _ magnitude => magnitude
  | .char codepoint => codepoint
  | _ => 0

def asFloat (m : Machine F) : Value F → F
  | .float value => value
  | v => if v.isNegative then m.sub m.zero (m.ofMagnitude v.magnitude) else m.ofMagnitude v.magnitude

def combine (m : Machine F) (operator : Operator) (left right : Value F) : Except Problem (Value F) :=
  match left,right with
  | .string l,.string r => if operator = .plus then .ok (.string (l ++ r)) else .error (.operands .string .string)
  | .string _,r => .error (.operands .string r.kind)
  | l,.string _ => .error (.operands l.kind .string)
  | .bool _,_ => .error .boolOperand
  | _,.bool _ => .error .boolOperand
  | l,r =>
    if l.kind = .float ∨ r.kind = .float then
      if operator = .percent then .error (.fractionalRemainder l.kind r.kind)
      else combineFloats m operator (asFloat m l) (asFloat m r)
    else combineIntegers operator l.isNegative l.magnitude r.isNegative r.magnitude

/-! ### Declared types -/

def isConstantFamily : FieldType → Bool
  | .string | .error | .typeParam => true
  | .primitive kind => kind ≠ .void
  | .other => false

def fitsSigned (negative : Bool) (magnitude positiveLimit : ℕ) : Bool :=
  if negative then magnitude ≤ positiveLimit + 1 else magnitude ≤ positiveLimit

def magnitudeFits (negative : Bool) (magnitude : ℕ) : PrimitiveKind → Bool
  | .byte => !negative && magnitude ≤ 255
  | .short => fitsSigned negative magnitude 32767
  | .int => fitsSigned negative magnitude 2147483647
  | .long => fitsSigned negative magnitude 9223372036854775807
  | .ushort => !negative && magnitude ≤ 65535
  | .uint => !negative && magnitude ≤ 4294967295
  | .ulong => !negative
  | .char => !negative && magnitude ≤ 1114111
  | _ => false

def isInfinite (m : Machine F) (value : F) : Bool := m.lt m.zero value && m.eq (m.mul value m.half) value

def floatMagnitudeFits (m : Machine F) (magnitude : F) (kind : PrimitiveKind) : Bool :=
  if isInfinite m magnitude then false
  else if kind = .float then m.le magnitude m.largestFloat
  else kind = .double

def fitFloat (m : Machine F) (kind : PrimitiveKind) (negative : Bool) (magnitude : F) : Except Problem (Value F) :=
  if floatMagnitudeFits m magnitude kind then .ok (floatConstant m negative magnitude) else .error (.beyondFloat kind negative)

def fitInteger (kind : PrimitiveKind) (negative : Bool) (magnitude : ℕ) : Except Problem (Value F) :=
  if magnitudeFits negative magnitude kind then .ok (integerConstant negative magnitude) else .error (.outsideRange kind)

/-- The value adapted to a declared type. A type that did not resolve and a type parameter take none, without a report. -/
def fitDeclaredType (m : Machine F) (declared : FieldType) (value : Value F) : Except (Option Problem) (Value F) :=
  match declared,value with
  | .string,.string text => .ok (.string text)
  | .string,v => .error (some (.mismatch declared v.kind))
  | .primitive .bool,.bool b => .ok (.bool b)
  | .primitive .bool,v => .error (some (.mismatch declared v.kind))
  | .primitive .char,.char codepoint => .ok (.char codepoint)
  | .primitive .char,v => .error (some (.mismatch declared v.kind))
  | .primitive kind,v =>
    if kind = .float ∨ kind = .double then
      match v with
      | .float f => (fitFloat m kind (m.lt f m.zero) (if m.lt f m.zero then m.sub m.zero f else f)).mapError some
      | .integer negative magnitude => (fitFloat m kind negative (m.ofMagnitude magnitude)).mapError some
      | v => .error (some (.mismatch declared v.kind))
    else
      match v with
      | .integer negative magnitude => (fitInteger kind negative magnitude).mapError some
      | .char codepoint => (fitInteger kind false codepoint).mapError some
      | v => .error (some (.mismatch declared v.kind))
  | _,_ => .error none

end Ens.Constants
