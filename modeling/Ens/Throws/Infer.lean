import Ens.Throws.Sets
import Ens.Logic.Saturation

/-! # Inference of throw sets

Every callable gets the set of what it lets escape. The sets start empty and only grow, each round adding what every callable
lets escape as the sets stand, until a round adds nothing.
-/
namespace Ens.Throws
variable {D T : Type} [DecidableEq D] [DecidableEq T]

structure Signature (D T : Type) where
  declaresThrows : Bool
  throwsTypes : List T
  throwsNothingHere : Bool
  declaration : Option D

inductive CalleeType (T : Type)
  | function (thrownTypes : List T)
  | unresolved
  | other

structure Call (D T : Type) where
  target : Option (Signature D T)
  calleeType : CalleeType T
  typeArguments : Option (List T)

inductive Node (D T : Type)
  | thrown (value : Option T) (children : List (Node D T))
  | tried (operand : Node D T)
  | call (call : Call D T) (receiver arguments : Node D T) (children : List (Node D T))
  | lambda
  | other (children : List (Node D T))

structure CatchClause (D T : Type) where
  binding : Option T
  hasRethrow : Bool
  body : Node D T

inductive Item (D T : Type)
  | function (declaration : D) (body : Option (Node D T)) (catchClauses : List (CatchClause D T))
  | test (declaration : D) (body : Node D T)
  | lambda (declaration : D) (children : List (Node D T))

structure Module (D T : Type) where
  functionItems : List (Item D T)
  testItems : List (Item D T)
  lambdaItems : List (Item D T)

def Module.items (m : Module D T) : List (Item D T) := m.functionItems ++ m.testItems ++ m.lambdaItems

variable {h : Types D T}

abbrev Registry (h : Types D T) := D → ThrowSet h

/-! ### Contracts -/

def throwSetOf (declared : List T) : ThrowSet h := declared.foldl (fun s t => s.addThrown t) .empty

def contractOf (r : Registry h) (signature : Signature D T) : ThrowSet h :=
  if signature.declaresThrows && !signature.throwsTypes.isEmpty then throwSetOf signature.throwsTypes
  else if signature.throwsNothingHere then .empty
  else match signature.declaration with
    | none => .empty
    | some declaration => r declaration

def declaresPending (h : Types D T) (signature : Signature D T) : Bool := signature.throwsTypes.any fun t => (h.pending t).isSome

/-- A class outside the error base and a type parameter without a bound under it are held as types that did not resolve. -/
def addRaised (scope : Option D) (into : ThrowSet h) (candidate : T) : ThrowSet h :=
  match h.errorBase with
  | none => into.addThrown candidate
  | some base =>
    if (h.param candidate).isSome && !h.alwaysSubclass scope candidate base then into.addUnresolved.1 else into.addThrown candidate

/-- What is left of a call to a function marked as throwing: one that raises nothing counts as raising a type that did not resolve,
and such a type is certain to be raised. -/
def contractFor (r : Registry h) (signature : Signature D T) : ThrowSet h :=
  let contract := contractOf r signature
  if signature.declaresThrows && contract.raisesNothing then ThrowSet.empty.addUnresolved.1
  else if !signature.declaresThrows || !contract.holdsUnresolved then contract
  else (ThrowSet.empty.addAll contract).1.addCertainUnresolved.1

def calleeFunctionThrownTypes (h : Types D T) (call : Call D T) : List T :=
  match call.calleeType with
  | .function thrownTypes => thrownTypes
  | .unresolved => [h.errorType]
  | .other => []

def addLambdaThrows (scope : Option D) (r : Registry h) (into : ThrowSet h) (lambda : D) : ThrowSet h :=
  (r lambda).memberTypes.foldl (addRaised scope) (into.addUnresolvedOf (r lambda)).1

def addPending (scope : Option D) (r : Registry h) (into : ThrowSet h) (entry : T) : ThrowSet h :=
  match h.pending entry with
  | none => addRaised scope into entry
  | some lambda => match h.pendingUse lambda with
    | some members => members.foldl (addRaised scope) into
    | none => addLambdaThrows scope r into lambda

def pendingContract (scope : Option D) (r : Registry h) (target : Signature D T) : ThrowSet h :=
  target.throwsTypes.foldl (addPending scope r) .empty

def withoutOpenParameters (contract : ThrowSet h) (owner : D) : ThrowSet h :=
  contract.memberTypes.foldl
    (fun kept t => if (h.param t).map Prod.fst = some owner then (kept.add h.errorType).1 else (kept.add t).1)
    (ThrowSet.empty.addUnresolvedOf contract).1

/-- What a type in a throws list is replaced by: a type parameter bound to a whole list gives every type in it. -/
def replacements (h : Types D T) (owner : D) (arguments : List T) (entry : T) : List T :=
  let replaced := match h.param entry with
    | some (o,i) => if o = owner then (arguments[i]?).getD (h.substitute entry owner arguments) else h.substitute entry owner arguments
    | none => h.substitute entry owner arguments
  (h.listMembers replaced).getD [replaced]

def substituteThrown (h : Types D T) (thrownList : List T) (owner : D) (arguments : List T) : List T :=
  thrownList.foldl (fun substituted entry =>
    (replacements h owner arguments entry).foldl (fun substituted t => if t ∈ substituted then substituted else substituted ++ [t])
      substituted) []

def addSubstituted (scope : Option D) (r : Registry h) (into : ThrowSet h) (raised : T) : ThrowSet h :=
  match h.pending raised with
  | some lambda => addLambdaThrows scope r into lambda
  | none => addRaised scope into raised

def callContract (scope : Option D) (r : Registry h) (call : Call D T) : ThrowSet h :=
  match call.target with
  | none => throwSetOf (calleeFunctionThrownTypes h call)
  | some target =>
    if declaresPending h target then pendingContract scope r target
    else match target.declaration with
      | none => contractFor r target
      | some owner => match call.typeArguments with
        | none => withoutOpenParameters (contractFor r target) owner
        | some arguments =>
          (substituteThrown h (contractFor r target).memberTypes owner arguments).foldl (addSubstituted scope r)
            (ThrowSet.empty.addUnresolvedOf (contractFor r target)).1

/-! ### Bodies -/

def Node.isCall : Node D T → Bool
  | .call .. => true
  | _ => false

mutual

def collectThrows (scope : Option D) (r : Registry h) : Node D T → ThrowSet h → ThrowSet h
  | .thrown value children, into => collectChildThrows scope r children (value.elim into (addRaised scope into))
  | .tried operand, into =>
    if operand.isCall then collectTriedChain scope r operand into else collectThrows scope r operand into
  | .call call _ _ children, into => collectChildThrows scope r children (into.addAll (callContract scope r call)).1
  | .lambda, into => into
  | .other children, into => collectChildThrows scope r children into

def collectTriedChain (scope : Option D) (r : Registry h) : Node D T → ThrowSet h → ThrowSet h
  | .call call receiver arguments children, into =>
    if receiver.isCall then
      collectThrows scope r arguments (collectTriedChain scope r receiver (into.addAll (callContract scope r call)).1)
    else collectChildThrows scope r children (into.addAll (callContract scope r call)).1
  | _, into => into

def collectChildThrows (scope : Option D) (r : Registry h) : List (Node D T) → ThrowSet h → ThrowSet h
  | [], into => into
  | node :: rest, into => collectChildThrows scope r rest (collectThrows scope r node into)

end

def caughtTypeOf (h : Types D T) (scope : Option D) (clause : CatchClause D T) : Option T :=
  match clause.binding,h.errorBase with
  | some caught,some base =>
    if h.alwaysSubclass scope caught base && (h.isClassLike caught || (h.param caught).isSome) then some caught else none
  | _,_ => none

def caughtBefore (h : Types D T) (scope : Option D) (thrown : T) (clauseTypes : List (Option T)) : Bool :=
  clauseTypes.any fun clauseType => clauseType.any fun c => h.alwaysSubclass scope thrown c

def catchesEveryError (h : Types D T) (scope : Option D) (clauseTypes : List (Option T)) : Bool :=
  h.errorBase.any fun base => caughtBefore h scope base clauseTypes

/-- What a rethrow raises again: the types its clause catches, and the clause's own type when the body throws a broader one. -/
def addRethrown (scope : Option D) (bodySet : ThrowSet h) (before : List (Option T)) (clauseType : T) (outward : ThrowSet h) : ThrowSet h :=
  let outcome := bodySet.memberTypes.foldl (fun (outward,broader) thrown =>
    if caughtBefore h scope thrown before then (outward,broader)
    else if h.alwaysSubclass none thrown clauseType then ((outward.add thrown).1,broader)
    else (outward,broader || h.mightOverlap scope clauseType thrown)) (outward,bodySet.holdsUnresolved)
  if outcome.2 then (outcome.1.add clauseType).1 else outcome.1

def addClause (scope : Option D) (r : Registry h) (bodySet : ThrowSet h) (clauses : List (CatchClause D T)) (outward : ThrowSet h)
    (i : ℕ) (clause : CatchClause D T) : ThrowSet h :=
  let rethrown := match caughtTypeOf h scope clause with
    | some clauseType =>
      if clause.hasRethrow then addRethrown scope bodySet ((clauses.take i).map (caughtTypeOf h scope)) clauseType outward else outward
    | none => outward
  collectThrows scope r clause.body rethrown

/-- What a function lets escape. Any clause could catch a type that did not resolve, so only a body without one keeps it certain. -/
def computeOutward (scope : Option D) (r : Registry h) (body : Option (Node D T)) (clauses : List (CatchClause D T)) : ThrowSet h :=
  let bodySet := body.elim .empty fun body => collectThrows scope r body .empty
  let clauseTypes := clauses.map (caughtTypeOf h scope)
  let escaped := bodySet.memberTypes.foldl (fun outward thrown =>
    if caughtBefore h scope thrown clauseTypes then outward else (outward.add thrown).1) .empty
  let outward :=
    if clauses.isEmpty then (escaped.addUnresolvedOf bodySet).1
    else if bodySet.holdsUnresolved && !catchesEveryError h scope clauseTypes then escaped.addUnresolved.1
    else escaped
  clauses.zipIdx.foldl (fun outward (clause,i) => addClause scope r bodySet clauses outward i clause) outward

/-! ### Rounds -/

def Item.declaration : Item D T → D
  | .function declaration _ _ => declaration
  | .test declaration _ => declaration
  | .lambda declaration _ => declaration

def outwardOf (r : Registry h) : Item D T → ThrowSet h
  | .function declaration body clauses => computeOutward (some declaration) r body clauses
  | .test _ body => collectThrows none r body .empty
  | .lambda _ children => collectChildThrows none r children .empty

def computeItem (state : Registry h × Bool) (item : Item D T) : Registry h × Bool :=
  let grown := (state.1 item.declaration).addAll (outwardOf state.1 item)
  (fun d => if d = item.declaration then grown.1 else state.1 d,state.2 || grown.2)

def computeOnce (state : Registry h × Bool) (m : Module D T) : Registry h × Bool := m.items.foldl computeItem state

def round (modules : List (Module D T)) (r : Registry h) : Registry h × Bool := modules.foldl computeOnce (r,false)

def settle (modules : List (Module D T)) : ℕ → Registry h → Option (Registry h) := Saturation.untilSame (round modules)

end Ens.Throws
