import Mathlib.Data.List.Basic
import Mathlib.Data.Int.Notation
import Mathlib.Data.Nat.Notation
import Mathlib.Order.Basic

/-! # The program a walk reads

Of lowered bodies and descriptor plans, what reachability depends on: the symbols, the descriptors and the
descriptor slots that instructions name.
-/
namespace Ens.Reach

abbrev Symbol := List Char

variable {T : Type}

/-! ### Bodies -/

structure Callee (T : Type) where
  symbol : Symbol
  receiverType : Option T

inductive TempType (T : Type)
  | plain (type : T)
  | optional (inner : TempType T)

inductive Instruction (T : Type)
  | call (callee : Callee T) (dispatchSlot : ℤ) (dispatchInterface : Option T)
  | classNew (type : T) (destructorSymbol : Symbol)
  | abandonConstruction (finalizerSymbol : Symbol)
  | closureNew (targetSymbol destructorSymbol : Symbol)
  | foreignCall (symbol : Symbol)
  | takeOrCopy (copy : Callee T)
  | globalAddress (symbol : Symbol)
  | typeTest (target : T)
  | checkedCast (target : T)
  | dynamicEquals (left : ℤ)
  | dynamicHash (value : ℤ)
  | dynamicToString (value : ℤ)
  | other

inductive Terminator (T : Type)
  | tryCall (callee : Callee T) (dispatchSlot : ℤ) (dispatchInterface : Option T)
  | other

structure Block (T : Type) where
  instructions : List (Instruction T)
  terminator : Option (Terminator T)

structure Body (T : Type) where
  tempTypes : List (TempType T)
  blocks : List (Block T)

def symbolsOf : Instruction T → List Symbol
  | .call callee dispatchSlot _ => if dispatchSlot ≥ 0 then [] else [callee.symbol]
  | .classNew _ destructor => [destructor]
  | .abandonConstruction finalizer => [finalizer]
  | .closureNew target destructor => if destructor.length = 0 then [target] else [target,destructor]
  | .foreignCall symbol => [symbol]
  | .takeOrCopy copy => [copy.symbol]
  | .globalAddress symbol => [symbol]
  | _ => []

def terminatorSymbolsOf : Terminator T → List Symbol
  | .tryCall callee dispatchSlot _ => if dispatchSlot ≥ 0 then [] else [callee.symbol]
  | .other => []

def descriptorTypesOf : Instruction T → List T
  | .classNew type _ => [type]
  | .typeTest target => [target]
  | .checkedCast target => [target]
  | .call _ _ dispatchInterface => dispatchInterface.toList
  | _ => []

def terminatorDescriptorTypesOf : Terminator T → List T
  | .tryCall _ _ dispatchInterface => dispatchInterface.toList
  | .other => []

/-! ### Calls through a slot -/

inductive SlotKind
  | method
  | interface
  | hash
  | equals
  | toString
  deriving DecidableEq, Repr

def SlotKind.number : SlotKind → ℕ
  | .method => 0
  | .interface => 1
  | .hash => 2
  | .equals => 3
  | .toString => 4

structure Dispatch (T : Type) where
  through : Option T
  kind : SlotKind
  index : ℕ
  deriving DecidableEq, Repr

def Dispatch.conformed (d : Dispatch T) : Option T := if d.kind = .interface then d.through else none

def slotCall (receiverType dispatchInterface : Option T) (slot : ℕ) : Dispatch T :=
  match dispatchInterface with
  | some i => ⟨some i,.interface,slot⟩
  | none => ⟨receiverType,.method,slot⟩

def TempType.core : TempType T → T
  | .plain type => type
  | .optional inner => inner.core

def knownAs (body : Body T) (temp : ℤ) : Option T :=
  if temp < 0 ∨ temp ≥ body.tempTypes.length then none else (body.tempTypes[temp.toNat]?).map TempType.core

inductive Mention (T : Type)
  | symbol (s : Symbol)
  | descriptor (t : T)
  | allocation (t : T)
  | dispatch (d : Dispatch T)

def followDispatch (body : Body T) : Instruction T → List (Mention T)
  | .classNew type _ => [.allocation type]
  | .call callee dispatchSlot dispatchInterface =>
    if dispatchSlot ≥ 0 then [.dispatch (slotCall callee.receiverType dispatchInterface dispatchSlot.toNat)] else []
  | .dynamicEquals left => [.dispatch ⟨knownAs body left,.equals,0⟩]
  | .dynamicHash value => [.dispatch ⟨knownAs body value,.hash,0⟩]
  | .dynamicToString value => [.dispatch ⟨knownAs body value,.toString,0⟩]
  | _ => []

def terminatorDispatch : Terminator T → List (Mention T)
  | .tryCall callee dispatchSlot dispatchInterface =>
    if dispatchSlot ≥ 0 then [.dispatch (slotCall callee.receiverType dispatchInterface dispatchSlot.toNat)] else []
  | .other => []

def Instruction.mentions (body : Body T) (i : Instruction T) : List (Mention T) :=
  (symbolsOf i).map .symbol ++ (descriptorTypesOf i).map .descriptor ++ followDispatch body i

def Terminator.mentions (t : Terminator T) : List (Mention T) :=
  (terminatorSymbolsOf t).map .symbol ++ (terminatorDescriptorTypesOf t).map .descriptor ++ terminatorDispatch t

def Body.mentions (body : Body T) : List (Mention T) :=
  body.blocks.flatMap fun b =>
    b.instructions.flatMap (Instruction.mentions body) ++ b.terminator.toList.flatMap Terminator.mentions

def Body.named (body : Body T) : List Symbol :=
  body.blocks.flatMap fun b => b.instructions.flatMap symbolsOf ++ b.terminator.toList.flatMap terminatorSymbolsOf

/-! ### Descriptors -/

structure Conformance (T : Type) where
  interfaceType : T
  implementations : List (Option Symbol)

structure Plan (T : Type) where
  type : T
  symbol : Symbol
  parent : Option T
  vtable : List (Option Symbol)
  conformances : List (Conformance T)
  hashSlot : Option Symbol
  equalsSlot : Option Symbol
  toStringSlot : Option Symbol

def slotOf [DecidableEq T] (plan : Plan T) (kind : SlotKind) (conformed : Option T) (index : ℕ) : Option Symbol :=
  match kind with
  | .method => (plan.vtable[index]?).join
  | .interface => match plan.conformances.find? fun c => conformed = some c.interfaceType with
    | some c => (c.implementations[index]?).join
    | none => none
  | .hash => plan.hashSlot
  | .equals => plan.equalsSlot
  | .toString => plan.toStringSlot

def Plan.implementations (plan : Plan T) : List Symbol :=
  (plan.vtable ++ plan.conformances.flatMap Conformance.implementations ++
    [plan.hashSlot,plan.equalsSlot,plan.toStringSlot]).filterMap id

/-- A finite program, lowered and planned: bodies by symbol and descriptor plans by type. No class is above
itself, and one type has one descriptor symbol. -/
structure Source (T : Type) where
  bodyOf : Symbol → Option (Body T)
  planOf : T → Option (Plan T)
  descriptorSymbol : T → Symbol
  defined : List Symbol
  mem_defined : ∀ s, (bodyOf s).isSome → s ∈ defined
  height : T → ℕ
  parent_below : ∀ t p q, planOf t = some p → p.parent = some q → height q < height t
  interface_below : ∀ t p, planOf t = some p → ∀ c ∈ p.conformances, height c.interfaceType < height t
  plan_type : ∀ t p, planOf t = some p → p.type = t
  plan_symbol : ∀ t p, planOf t = some p → p.symbol = descriptorSymbol t

variable [DecidableEq T]

def slotKey (src : Source T) (plan : Plan T) (kind : SlotKind) (conformed : Option T) (index : ℕ) : Symbol :=
  plan.symbol ++ '|' :: (Nat.toDigits 10 kind.number ++ '|' :: ((conformed.map src.descriptorSymbol).getD [] ++
    '|' :: Nat.toDigits 10 index))

def extendsFrom (src : Source T) (through : T) : ℕ → Plan T → Bool
  | 0, plan => plan.type = through
  | k + 1, plan => plan.type = through || match plan.parent.bind src.planOf with
    | some above => extendsFrom src through k above
    | none => false

def isBelow (src : Source T) (plan : Plan T) (through : Option T) (kind : SlotKind) : Bool :=
  match through with
  | none => true
  | some t => (plan.conformances.any fun c => c.interfaceType = t) ||
    (kind ≠ .interface && extendsFrom src t (src.height plan.type) plan)

/-! ### Classes below a type -/

inductive Extends (src : Source T) (through : T) : Plan T → Prop
  | self {plan : Plan T} (h : plan.type = through) : Extends src through plan
  | up {plan above : Plan T} {q : T} (hq : plan.parent = some q) (ha : src.planOf q = some above) (h : Extends src through above) :
    Extends src through plan

/-- An object of a class with this plan can be the receiver. An interface slot needs the class to
conform to that interface. -/
def Below (src : Source T) (plan : Plan T) (through : Option T) (kind : SlotKind) : Prop :=
  ∀ t, through = some t → (∃ c ∈ plan.conformances, c.interfaceType = t) ∨ kind ≠ .interface ∧ Extends src t plan

theorem extendsFrom_iff {src : Source T} {t u : T} {plan : Plan T} {k : ℕ} (hp : src.planOf u = some plan) (hk : src.height u ≤ k) :
    extendsFrom src t k plan = true ↔ Extends src t plan := by
  induction k generalizing u plan with
  | zero =>
    rw [extendsFrom,decide_eq_true_iff]
    refine ⟨.self,fun h => ?_⟩
    cases h with
    | self h => exact h
    | up hq ha h => exact absurd (src.parent_below u plan _ hp hq) (by omega)
  | succ k ih =>
    rw [extendsFrom,Bool.or_eq_true,decide_eq_true_iff]
    constructor
    · rintro (h | h)
      · exact .self h
      · split at h
        · rename_i above habove
          obtain ⟨q,hq,ha⟩ := Option.bind_eq_some_iff.mp habove
          have hlt := src.parent_below u plan q hp hq
          exact .up hq ha ((ih ha (by omega)).mp h)
        · cases h
    · intro h
      cases h with
      | self h => exact .inl h
      | @up _ above q hq ha h =>
        have hlt := src.parent_below u plan q hp hq
        rw [show plan.parent.bind src.planOf = some above by rw [hq,Option.bind_some,ha]]
        exact .inr ((ih ha (by omega)).mpr h)

theorem isBelow_iff {src : Source T} {u : T} {plan : Plan T} {through : Option T} {kind : SlotKind} (hp : src.planOf u = some plan) :
    isBelow src plan through kind = true ↔ Below src plan through kind := by
  cases through with
  | none => simp [isBelow,Below]
  | some t =>
    have hext := extendsFrom_iff (t := t) hp (Nat.le_of_eq (congrArg src.height (src.plan_type u plan hp).symm))
    simp [isBelow,Below,hext]

end Ens.Reach
