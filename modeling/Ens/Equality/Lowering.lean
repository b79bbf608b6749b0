import Ens.Dispatch.Tables
import Ens.Logic.Worklist

/-! # Who declares `hash` and `equals`

Which declaration runs where the language compares two objects or takes the hash of one. It is read off the static type where that type
has one class of objects only, and off the descriptor of the object everywhere else.
-/
set_option linter.all false
namespace Ens.Equality
open Dispatch

inductive Behavior
  | hash
  | equals
deriving DecidableEq

def Behavior.name : Behavior → MethodName
  | .hash => .named 0
  | .equals => .named 1

inductive Precision
  | single
  | double
deriving DecidableEq

inductive Ty (K J S : Type)
  | void
  | whole
  | float (precision : Precision)
  | string
  | array (element : Ty K J S)
  | classType (k : K)
  | interfaceType (j : J)
  | external
  | function
  | structType (s : S)
  | optional (inner : Ty K J S)
deriving DecidableEq

namespace Ty
variable {K J S : Type}

def isPointer : Ty K J S → Bool
  | .string | .array _ | .classType _ | .interfaceType _ | .external | .function => true
  | _ => false

def shapeOf : Ty K J S → Ty K J S
  | .optional (.optional t) => .optional (.optional t)
  | .optional t => t
  | t => t

def classOf (t : Ty K J S) : Option K := match t.shapeOf with
  | .classType k => some k
  | _ => none

def interfaceOf (t : Ty K J S) : Option J := match t.shapeOf with
  | .interfaceType j => some j
  | _ => none

def taggedPayloadOf : Ty K J S → Option (Ty K J S)
  | .optional t => if t.isPointer then none else some t
  | _ => none

end Ty

/-- The type a class is written as inside its own declaration is the class itself, or a generic class at its own type parameters. -/
structure Program (K J S : Type) where
  classes : Hierarchy K J (Ty K J S)
  selfType : K → K
  isGeneric : K → Bool
  interfaceTemplate : J → J
  fieldsOf : S → List (Ty K J S)
  declaresOwnPair : S → Bool

namespace Program
variable {K J S : Type} [DecidableEq K] [DecidableEq J] [DecidableEq S] (P : Program K J S)

def isOwnType (owner : K) (t : Ty K J S) : Bool := t.classOf = some owner || t.classOf = some (P.selfType owner)

/-- The checker holds a `hash` to return a `long`, and an `equals` of this shape to return a `bool`. -/
def declaresBehavior (owner : K) (b : Behavior) (m : Method (Ty K J S)) : Bool :=
  m.name = b.name && !m.declaresThrows && match b, m.parameterTypes with
    | .hash, [] => true
    | .equals, [t] => P.isOwnType owner t
    | _, _ => false

def ownBehavior (b : Behavior) (k : K) : Option (Place K) := P.classes.ownWhere (P.declaresBehavior k b) k

def declaredBehavior (k : K) (b : Behavior) : Option (Place K) := (P.classes.chain k).findSome? (P.ownBehavior b)

def directSubclasses (k : K) : List K :=
  P.classes.classes.filter fun d => (P.classes.baseOf d).map P.classes.declared = some (P.classes.declared k)

def runtimeTypesOf (k : K) : List K :=
  Worklist.visit P.directSubclasses (1 + ∑ c ∈ insert k P.classes.classes.toFinset, (P.directSubclasses c).length) [k] []

def conformsAt (c : K) (j : J) : Bool :=
  decide (j ∈ P.classes.conformances c) ||
    P.isGeneric c && (P.classes.conformances c).any fun i => P.interfaceTemplate i = P.interfaceTemplate j

def someImplementerDeclares (j : J) (b : Behavior) : Bool :=
  P.classes.classes.any fun c => P.conformsAt c j && (P.declaredBehavior c b).isSome

def subtreeDeclares (t : Ty K J S) (b : Behavior) : Bool := match t.interfaceOf with
  | some j => P.someImplementerDeclares j b
  | none => match t.classOf with
    | none => false
    | some k => (P.runtimeTypesOf k).any fun c => (P.declaredBehavior c b).isSome

def isOnlyRuntimeType (t : Ty K J S) : Bool := match t.interfaceOf with
  | some _ => false
  | none => match t.classOf with
    | none => false
    | some k => (P.runtimeTypesOf k).length = 1

/-- What the descriptor of a class holds for a behavior, none where the declaration is abstract or has an error slot. -/
def behaviorSlot (k : K) (b : Behavior) : Option (Place K) :=
  (P.declaredBehavior k b).filter fun p => P.classes.isConcrete p && !P.classes.abiThrows p

def dispatched (k : K) (p : Place K) : Option (Place K) := match P.classes.vtableSlotOf p with
  | none => some p
  | some slot => P.classes.slotImplementation k slot

end Program
end Ens.Equality

/-! ## `==` and `hash` as they are lowered

Two recursions over one type. A value outside arrays is compared and hashed where it stands, and the elements of an array by functions
made once for an element type, which ask the descriptors of objects only.
-/
namespace Ens.Equality
open Dispatch

/-- A null pointer stands for any absent reference. -/
inductive Value
  | nothing
  | whole (n : ℤ)
  | float (bits : ℕ)
  | null
  | text (bytes : List ℕ)
  | array (items : List Value)
  | object (address : ℕ)
  | absent
  | present (payload : Value)
  | struct (fields : List Value)

/-! ### Numbers and text -/

namespace Precision

def width : Precision → ℕ
  | single => 32
  | double => 64

def mantissa : Precision → ℕ
  | single => 23
  | double => 52

def magnitude (p : Precision) (bits : ℕ) : ℕ := bits % 2 ^ (p.width - 1)

def infinity (p : Precision) : ℕ := 2 ^ (p.width - 1) - 2 ^ p.mantissa

def isNaN (p : Precision) (bits : ℕ) : Bool := p.infinity < p.magnitude bits

def negativeZero (p : Precision) : ℕ := 2 ^ (p.width - 1)

def floatCmpEq (p : Precision) (a b : ℕ) : Bool :=
  !p.isNaN a && !p.isNaN b && (a = b || p.magnitude a = 0 && p.magnitude b = 0)

end Precision

abbrev Hash := BitVec 64

def basis : Hash := BitVec.ofInt 64 (-3750763034362895579)

def prime : Hash := 1099511628211

def fold (hash mixed : Hash) : Hash := (hash ^^^ mixed) * prime

def missing : Hash := BitVec.ofInt 64 (-1)

def stringHash (bytes : List ℕ) : Hash := bytes.foldl (fun hash byte => fold hash (BitVec.ofNat 64 byte)) basis

/-! ### Objects -/

/-- What is read of the running program: the descriptor of each object, and what the declarations of the program give. -/
structure Heap (K S : Type) where
  runtimeClass : ℕ → K
  equals : Place K → ℕ → ℕ → Bool
  hash : Place K → ℕ → Hash
  structEquals : S → Value → Value → Bool
  structHash : S → Value → Hash

variable {K J S : Type} [DecidableEq K] [DecidableEq J] [DecidableEq S] (P : Program K J S) (H : Heap K S)

def compareIdentity : Value → Value → Bool
  | .null, .null => true
  | .object x, .object y => x = y
  | _, _ => false

def compareContents (p : Place K) : Value → Value → Bool
  | .object x, .object y => x = y || (P.dispatched (H.runtimeClass x) p).any fun q => H.equals q x y
  | a, b => compareIdentity a b

def dynamicEquals : Value → Value → Bool
  | .object x, .object y => x = y ||
      decide (H.runtimeClass x = H.runtimeClass y) && (P.behaviorSlot (H.runtimeClass x) .equals).any fun p => H.equals p x y
  | a, b => compareIdentity a b

def compareReferences (t : Ty K J S) (a b : Value) : Bool :=
  if P.subtreeDeclares t .equals then
    if P.isOnlyRuntimeType t then
      match t.classOf.bind (P.declaredBehavior · .equals) with
      | some p => compareContents P H p a b
      | none => compareIdentity a b
    else dynamicEquals P H a b
  else compareIdentity a b

def identityHash : Value → Hash
  | .object x => BitVec.ofNat 64 x
  | _ => 0

def callDeclaredHash (p : Place K) : Value → Hash
  | .object x => (P.dispatched (H.runtimeClass x) p).elim 0 fun q => H.hash q x
  | _ => 0

def dynamicHash : Value → Hash
  | .object x => (P.behaviorSlot (H.runtimeClass x) .hash).elim (identityHash (.object x)) fun q => H.hash q x
  | a => identityHash a

def hashOfReference (t : Ty K J S) (a : Value) : Hash :=
  if P.subtreeDeclares t .hash then
    if P.isOnlyRuntimeType t then
      match t.classOf.bind (P.declaredBehavior · .hash) with
      | some p => callDeclaredHash P H p a
      | none => identityHash a
    else dynamicHash P H a
  else identityHash a

/-! ### Values -/

/-- Where a value stands: outside arrays, or inside the functions for the contents of one. -/
inductive Side
  | direct
  | content
deriving DecidableEq

inductive Form (K J S : Type)
  | void
  | whole
  | float (precision : Precision)
  | string
  | array (element : Ty K J S)
  | classLike
  | pointer
  | tagged (payload : Ty K J S)
  | struct (s : S)

def formOf (t : Ty K J S) : Form K J S := match t.taggedPayloadOf with
  | some payload => .tagged payload
  | none => match t.shapeOf with
    | .void => .void
    | .whole => .whole
    | .float p => .float p
    | .string => .string
    | .array element => .array element
    | .classType _ => .classLike
    | .interfaceType _ => .classLike
    | .external => .pointer
    | .function => .pointer
    | .structType s => .struct s
    | .optional inner => .tagged inner

mutual

def equal (side : Side) (t : Ty K J S) (a b : Value) : Bool := match formOf t, a, b with
  | .tagged _, .absent, .absent => true
  | .tagged payload, .present x, .present y => equal side payload x y
  | .struct s, .struct xs, .struct ys =>
    if P.declaresOwnPair s then H.structEquals s (.struct xs) (.struct ys) else equalFields side (P.fieldsOf s) xs ys
  | .string, .text xs, .text ys => xs = ys
  | .array element, .array xs, .array ys => equalItems element xs ys
  | .classLike, a, b => match side with
    | .direct => compareReferences P H t a b
    | .content => dynamicEquals P H a b
  | .pointer, a, b => compareIdentity a b
  | .float p, .float m, .float n => p.floatCmpEq m n
  | .whole, .whole m, .whole n => m = n
  | .void, .nothing, .nothing => true
  | .string, .null, .null => true
  | .array _, .null, .null => true
  | _, _, _ => false

def equalFields (side : Side) : List (Ty K J S) → List Value → List Value → Bool
  | t :: ts, x :: xs, y :: ys =>
    if side = .direct ∧ t = .void then equalFields side ts xs ys else equal side t x y && equalFields side ts xs ys
  | [], [], [] => true
  | _, _, _ => false

def equalItems (element : Ty K J S) : List Value → List Value → Bool
  | [], [] => true
  | x :: xs, y :: ys => equal .content element x y && equalItems element xs ys
  | _, _ => false

end

mutual

/-- `hash` of a value. A null pointer has the hash of an absent value outside arrays and as an array. -/
def hash (side : Side) (t : Ty K J S) (a : Value) : Hash := match formOf t, a with
  | .tagged payload, .present x => hash side payload x
  | .tagged _, _ => missing
  | .struct s, .struct xs =>
    if P.declaresOwnPair s then H.structHash s (.struct xs) else hashFields side basis (P.fieldsOf s) xs
  | .string, .text xs => stringHash xs
  | .array element, .array xs => hashItems 17 element xs
  | .array _, .null => missing
  | .classLike, .object x => match side with
    | .direct => hashOfReference P H t (.object x)
    | .content => dynamicHash P H (.object x)
  | .pointer, .object x => identityHash (.object x)
  | .float _, .float m => BitVec.ofNat 64 m
  | .whole, .whole m => BitVec.ofInt 64 m
  | _, .null => match side with
    | .direct => missing
    | .content => 0
  | _, _ => 0

def hashFields (side : Side) (folded : Hash) : List (Ty K J S) → List Value → Hash
  | t :: ts, x :: xs =>
    if side = .direct ∧ t = .void then hashFields side folded ts xs else hashFields side (fold folded (hash side t x)) ts xs
  | _, _ => folded

def hashItems (folded : Hash) (element : Ty K J S) : List Value → Hash
  | [] => folded
  | x :: xs => hashItems (folded * 31 + hash .content element x) element xs

end

end Ens.Equality
