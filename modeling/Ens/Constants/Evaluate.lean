import Ens.Constants.Values

/-! # Evaluation of constants

A static const is evaluated on demand, with a mark on those whose evaluation is under way. A lazy const is only walked, for the lazy
consts it reads.
-/
namespace Ens.Constants
variable {F : Type}

structure Field where
  id : FieldId
  type : FieldType
  isLazy : Bool
  isPrivate : Bool
  initializer : Option Expr

inductive Binding
  | type (target : Declared)
  | namespace (modulePath : Name)

inductive DeclaredKind
  | statics
  | enum (memberNames : List Name)
  | plain

/-- The fields of a program in the order they are declared, and what the phases before have made of its names. No name is declared
twice in one place, and the fields a layout shares with the program are the program's. -/
structure Program where
  fields : List Field
  unique : (fields.map Field.id).Nodup
  binding : Name → Name → Option Binding
  declared : Declared → Option DeclaredKind
  typeParameters : Declared → List Name
  bases : Declared → List Declared
  layout : Declared → List Field
  shared : ∀ d, ∀ f ∈ layout d, ∀ g ∈ fields, f.id = g.id → f = g
  visible : Declared → Name → Bool
  readable : FieldId → FieldId → Bool

structure Item where
  field : Field
  initializer : Expr

variable (P : Program)

def findStatic (owner : Declared) (name : Name) : Option Field :=
  P.fields.find? fun f => f.id.owner = owner ∧ f.id.isStatic ∧ f.id.name = name

def findInLayout (owner : Declared) (name : Name) : Option Field := (P.layout owner).find? fun f => f.id.name = name

def gatherField (f : Field) : Option Item :=
  if !f.id.isStatic && !f.isLazy then none
  else match if f.id.isStatic then findStatic P f.id.owner f.id.name else findInLayout P f.id.owner f.id.name with
    | none => none
    | some found => if found.id ≠ f.id then none else f.initializer.map fun initializer => ⟨found,initializer⟩

def items : List Item := P.fields.filterMap (gatherField P)

def itemOf (field : FieldId) : Option Item := (items P).find? fun item => item.field.id = field

/-! ### Names -/

def resolveDeclared (item : Item) (name : Name) : Option Declared :=
  let modulePath := item.field.id.owner.modulePath
  if name = [] then none
  else match P.binding modulePath name with
    | some (.type target) => some target
    | some (.namespace _) => none
    | none => (P.declared ⟨modulePath,name⟩).map fun _ => ⟨modulePath,name⟩

def asStaticOwner (declared : Declared) : Option Declared :=
  match P.declared declared with
  | some .statics => some declared
  | _ => none

def resolveTypeName (item : Item) (name : Name) : Option Declared := (resolveDeclared P item name).bind (asStaticOwner P)

def headWithoutStatics (declared : Declared) (memberName : Name) : Problem :=
  match P.declared declared with
  | some (.enum memberNames) => if memberName ∈ memberNames then .enumMember declared memberName else .notEnumMember declared memberName
  | _ => .withoutStatics declared memberName

def unknownHead (item : Item) (headName memberName : Name) : Problem :=
  if headName ∈ P.typeParameters item.field.id.owner then .typeParameter headName
  else match resolveDeclared P item headName with
    | some declared => headWithoutStatics P declared memberName
    | none => .unknownHead headName

def resolveModuleType (item : Item) (modulePath typeName memberName : Name) : Except Problem Declared :=
  match P.declared ⟨modulePath,typeName⟩ with
  | none => .error (.missingType modulePath typeName)
  | some _ =>
    if !P.visible ⟨modulePath,typeName⟩ item.field.id.owner.modulePath then .error (.hiddenType ⟨modulePath,typeName⟩)
    else match asStaticOwner P ⟨modulePath,typeName⟩ with
      | none => .error (headWithoutStatics P ⟨modulePath,typeName⟩ memberName)
      | some owner => .ok owner

def resolveQualifiedHead (item : Item) (head : Expr) (memberName : Name) : Except Problem Declared :=
  match head with
  | .member (.identifier moduleName) typeName => match P.binding item.field.id.owner.modulePath moduleName with
    | some (.namespace modulePath) => resolveModuleType P item modulePath typeName memberName
    | _ => .error .memberOfValue
  | _ => .error .memberOfValue

def resolveHead (item : Item) (head : Expr) (memberName : Name) : Except Problem Declared :=
  match head with
  | .identifier name => match resolveTypeName P item name with
    | none => .error (unknownHead P item name memberName)
    | some named => .ok named
  | _ => resolveQualifiedHead P item head memberName

/-- The refusal of a name that is no static const of the type: a base class's is refused as written through a subclass. -/
def missingStaticConst (item : Item) (named : Declared) (memberName : Name) : Problem :=
  match (P.bases named).findSome? fun base => findStatic P base memberName with
  | none => .notStaticConst named memberName
  | some inherited =>
    if !P.readable item.field.id inherited.id then .hidden inherited.id
    else if inherited.isLazy then .lazyConst inherited.id
    else .notInherited inherited.id

def resolveReference (item : Item) (object : Expr) (memberName : Name) : Except Problem Field :=
  match object with
  | .genericName head => match resolveHead P item head memberName with
    | .error problem => .error problem
    | .ok named => match findStatic P named memberName with
      | none => .error (missingStaticConst P item named memberName)
      | some _ => .error (.typeArguments named memberName)
  | _ => match resolveHead P item object memberName with
    | .error problem => .error problem
    | .ok named => match findStatic P named memberName with
      | none => .error (missingStaticConst P item named memberName)
      | some field =>
        if field.isLazy then .error (.lazyConst field.id)
        else if !P.readable item.field.id field.id then .error (.hidden field.id)
        else .ok field

def identifierProblem (item : Item) (name : Name) : Problem :=
  let takes := name ∈ P.typeParameters item.field.id.owner
  if (findStatic P item.field.id.owner name).isSome then if takes then .typeParameterTookName name else .sibling name
  else if takes then .typeParameter name
  else .notConstant name

/-! ### Evaluation -/

inductive Progress
  | pending | evaluating | finished
  deriving DecidableEq

structure State (F : Type) where
  state : FieldId → Progress
  value : FieldId → Option (Value F)
  reports : List (FieldId × Problem)

def State.mark (s : State F) (id : FieldId) (progress : Progress) : State F :=
  { s with state := fun k => if k = id then progress else s.state k }

def State.report (s : State F) (item : Item) (problem : Problem) : State F :=
  { s with reports := s.reports ++ [(item.field.id,problem)] }

def State.setConstantValue (s : State F) (id : FieldId) (v : Value F) : State F :=
  { s with value := fun k => if k = id then some v else s.value k }

abbrev Visit (F : Type) := Item → State F → Option (State F)

def settle (item : Item) (computed : Except Problem (Value F)) (s : State F) : Option (Value F) × State F :=
  match computed with
  | .ok v => (some v,s)
  | .error problem => (none,s.report item problem)

def readField (visit : Visit F) (item : Item) (field : FieldId) (s : State F) : Option (Option (Value F) × State F) :=
  match itemOf P field with
  | none => some (none,s)
  | some target =>
    if s.state target.field.id = .evaluating then some (none,s.report item (.cycle field))
    else (visit target s).map fun s => (s.value field,s)

def evaluate (m : Machine F) (visit : Visit F) (item : Item) : Expr → State F → Option (Option (Value F) × State F)
  | .literal token, s => some (settle item (evaluateLiteral m token) s)
  | .parenthesized inner, s => evaluate m visit item inner s
  | .prefixed operator operand, s =>
    if !operator.isSign then some (none,s.report item (.notOperator operator))
    else match negatedBeyond m operator operand with
      | some text => some (none,s.report item (.beyondEveryInteger text true))
      | none => (evaluate m visit item operand s).map fun
        | (some v,s) => settle item (applySign m operator v) s
        | (none,s) => (none,s)
  | .binary operator left right, s =>
    if !isConstantOperator operator then some (none,s.report item (.notOperator operator))
    else (evaluate m visit item left s).bind fun (l,s) => (evaluate m visit item right s).map fun (r,s) =>
      match l,r with
      | some l,some r => settle item (combine m operator l r) s
      | _,_ => (none,s)
  | .member object name, s => match resolveReference P item object name with
    | .error problem => some (none,s.report item problem)
    | .ok field => readField P visit item field.id s
  | .identifier name, s => some (none,s.report item (identifierProblem P item name))
  | .runtime kind _, s => some (none,s.report item (.runtime kind))
  | .genericName _, s | .this, s | .lambda, s => some (none,s.report item (.runtime .other))

def finish (m : Machine F) (item : Item) (computed : Option (Value F) × State F) : State F :=
  let s := computed.2
  let kept := match computed.1 with
    | none => s
    | some v => match fitDeclaredType m item.field.type v with
      | .ok fitted => s.setConstantValue item.field.id fitted
      | .error none => s
      | .error (some problem) => s.report item problem
  kept.mark item.field.id .finished

def evaluateItem (m : Machine F) : ℕ → Visit F
  | 0, _, _ => none
  | n + 1, item, s =>
    if s.state item.field.id ≠ .pending then some s
    else if !isConstantFamily item.field.type then some ((s.mark item.field.id .evaluating).mark item.field.id .finished)
    else (evaluate P m (evaluateItem m n) item item.initializer (s.mark item.field.id .evaluating)).map (finish m item)

/-! ### Lazy consts -/

def isObjectLazy (item : Item) : Bool := (findInLayout P item.field.id.owner item.field.id.name).map Field.id = some item.field.id

/-- The field of a layout a name reaches, the most derived one first. A private field of a base is not inherited. -/
def inheritedOrOwnField (owner : Declared) (name : Name) : Option Field :=
  match (P.layout owner).reverse.find? fun f => f.id.name = name with
  | none => none
  | some f => if f.id.owner ≠ owner ∧ f.isPrivate then none else some f

def lazyReference (item : Item) (object : Expr) (memberName : Name) : Option Field :=
  let field := match unwrapParentheses object with
    | .this => if isObjectLazy P item then inheritedOrOwnField P item.field.id.owner memberName else none
    | .identifier name => (resolveTypeName P item name).bind fun named => findStatic P named memberName
    | _ => none
  field.filter Field.isLazy

def followLazyReference (visit : Visit F) (item : Item) (object : Expr) (memberName : Name) (s : State F) : Option (State F) :=
  match lazyReference P item object memberName with
  | none => some s
  | some field => match itemOf P field.id with
    | none => some s
    | some target =>
      if s.state target.field.id = .evaluating then some (s.report item (.lazyCycle field.id)) else visit target s

mutual

def walkLazyReferences (visit : Visit F) (item : Item) : Expr → State F → Option (State F)
  | .member object name, s => (followLazyReference P visit item object name s).bind (walkLazyReferences visit item object)
  | .parenthesized inner, s => walkLazyReferences visit item inner s
  | .prefixed _ operand, s => walkLazyReferences visit item operand s
  | .binary _ left right, s => (walkLazyReferences visit item left s).bind (walkLazyReferences visit item right)
  | .genericName head, s => walkLazyReferences visit item head s
  | .runtime _ children, s => walkChildren visit item children s
  | .literal _, s | .identifier _, s | .this, s | .lambda, s => some s

def walkChildren (visit : Visit F) (item : Item) : List Expr → State F → Option (State F)
  | [], s => some s
  | e :: es, s => (walkLazyReferences visit item e s).bind (walkChildren visit item es)

end

def walkLazyItem : ℕ → Visit F
  | 0, _, _ => none
  | n + 1, item, s =>
    if s.state item.field.id ≠ .pending then some s
    else (walkLazyReferences P (walkLazyItem n) item item.initializer (s.mark item.field.id .evaluating)).map fun s =>
      s.mark item.field.id .finished

/-! ### A program -/

def visitItem (m : Machine F) (n : ℕ) : Visit F := fun item s =>
  if item.field.isLazy then walkLazyItem P n item s else evaluateItem P m n item s

def evaluateEach (m : Machine F) (n : ℕ) : List Item → State F → Option (State F)
  | [], s => some s
  | item :: rest, s => (visitItem P m n item s).bind (evaluateEach m n rest)

def evaluateProgram (m : Machine F) : Option (State F) :=
  evaluateEach P m ((items P).length + 1) (items P) ⟨fun _ => .pending,fun _ => none,[]⟩

end Ens.Constants
