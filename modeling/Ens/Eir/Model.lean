import Mathlib.Data.Int.Notation
import Mathlib.Data.List.Basic

/-! # Functions in the intermediate representation

A function is a list of blocks of instructions over numbered temps. An instruction is known here by the temps it defines and reads, and a
terminator by these and by the blocks it goes to.
-/
namespace Ens.Eir

inductive Instruction
  | constInt (result : ℤ) | constFloat (result : ℤ) | constBool (result : ℤ) | binary (result left right : ℤ)
  | unary (result operand : ℤ) | cast (result operand : ℤ) | loadSlot (result : ℤ) | storeSlot (value : ℤ) | takeSlot (result : ℤ)
  | call (result receiver : ℤ) (arguments : List ℤ) | retain (value : ℤ) | release (value : ℤ) | retainPtr (address : ℤ)
  | releasePtr (address : ℤ) | slotAddress (result : ℤ) | globalAddress (result : ℤ) | fieldAddress (result base : ℤ)
  | elementAddress (result array index : ℤ) | loadPtr (result address : ℤ) | takePtr (result address : ℤ) | storePtr (address value : ℤ)
  | zeroStruct (result : ℤ) | constNull (result : ℤ) | classNew (result : ℤ) | abandonConstruction (object : ℤ)
  | objectFieldAddress (result object : ℤ) | closureNew (result : ℤ) | closureCapture (result closure : ℤ)
  | closureCall (result closure : ℤ) (arguments : List ℤ) | weakStore (address value : ℤ) | weakLoad (result address : ℤ)
  | weakRelease (address : ℤ) | typeTest (result value : ℤ) | checkedCast (result value : ℤ) | dynamicEquals (result left right : ℤ)
  | dynamicHash (result value : ℤ) | dynamicToString (result value : ℤ) | runtimeTypeName (result value : ℤ)
  | boundsCheck (array index : ℤ) | rangeCheck (start stop length : ℤ) | constString (result : ℤ) | arrayNew (result size : ℤ)
  | arrayLength (result array : ℤ) | arraySlice (result array start stop : ℤ) | arrayFreeze (result array : ℤ)
  | takeOrCopy (result value : ℤ) | atomicLoad (result address : ℤ) | atomicStore (address value : ℤ)
  | atomicCompareSet (result address expected replacement : ℤ) | atomicAdd (result address amount : ℤ)
  | stringConcat (result left right : ℤ) | stringEqual (result left right : ℤ) | hashValue (result value : ℤ)
  | wrapOptional (result value : ℤ) | absentOptional (result : ℤ) | optionalPresence (result value : ℤ)
  | optionalPayload (result value : ℤ) | optionalPayloadAddress (result base : ℤ) | stringSubstring (result value start stop : ℤ)
  | stringLength (result value : ℤ) | stringByteAt (result value index : ℤ) | stringToBytes (result value : ℤ)
  | stringFromBytes (result bytes : ℤ) | intToString (result value : ℤ) | charToString (result value : ℤ)
  | boolToString (result value : ℤ) | enumToString (result value : ℤ) | doubleToString (result value : ℤ) | jsonEscape (result value : ℤ)
  | foreignCall (result : ℤ) (arguments : List ℤ) | cStringLift (result handle : ℤ) | panic (value : ℤ) | captureTrace (error : ℤ)
  | traceSite | errorTrace (result error : ℤ)

inductive Terminator
  | ret (value : ℤ)
  | jump (target : ℤ)
  | branch (condition thenTarget elseTarget : ℤ)
  | switch (value : ℤ) (caseValues caseTargets : List ℤ) (defaultTarget : ℤ)
  | unreachable
  | tryCall (result receiver : ℤ) (arguments : List ℤ) (errorResult normalTarget unwindTarget : ℤ)
  | tryClosureCall (result closure : ℤ) (arguments : List ℤ) (errorResult normalTarget unwindTarget : ℤ)
  | propagate (error : ℤ)

structure Block where
  label : String
  instructions : List Instruction
  terminator : Option Terminator

/-- A function, whose receiver and parameters are the first temps. -/
structure EirFunction where
  symbol : String
  receiver : Bool
  parameters : ℕ
  blocks : List Block
  tempCount : ℕ

def EirFunction.entryTempCount (f : EirFunction) : ℕ := if f.receiver then f.parameters + 1 else f.parameters

/-- The temp an instruction defines, or -1 when it defines none. -/
def resultOf : Instruction → ℤ
  | .constInt result | .constFloat result | .constBool result | .binary result _ _ | .unary result _ | .cast result _ | .loadSlot result
  | .takeSlot result | .call result _ _ | .slotAddress result | .globalAddress result | .fieldAddress result _
  | .elementAddress result _ _ | .loadPtr result _ | .takePtr result _ | .zeroStruct result | .constNull result | .classNew result
  | .objectFieldAddress result _ | .closureNew result | .closureCapture result _ | .closureCall result _ _ | .weakLoad result _
  | .typeTest result _ | .checkedCast result _ | .dynamicEquals result _ _ | .dynamicHash result _ | .dynamicToString result _
  | .runtimeTypeName result _ | .constString result | .arrayNew result _ | .arrayLength result _ | .arraySlice result _ _ _
  | .arrayFreeze result _ | .takeOrCopy result _ | .atomicLoad result _ | .atomicCompareSet result _ _ _ | .atomicAdd result _ _
  | .stringConcat result _ _ | .stringEqual result _ _ | .hashValue result _ | .wrapOptional result _ | .absentOptional result
  | .optionalPresence result _ | .optionalPayload result _ | .optionalPayloadAddress result _ | .stringSubstring result _ _ _
  | .stringLength result _ | .stringByteAt result _ _ | .stringToBytes result _ | .stringFromBytes result _ | .intToString result _
  | .charToString result _ | .boolToString result _ | .enumToString result _ | .doubleToString result _ | .jsonEscape result _
  | .foreignCall result _ | .cStringLift result _ | .errorTrace result _ => result
  | _ => -1

def usesOf : Instruction → List ℤ
  | .binary _ left right | .dynamicEquals _ left right | .stringConcat _ left right | .stringEqual _ left right => [left,right]
  | .unary _ operand | .cast _ operand => [operand]
  | .storeSlot value | .retain value | .release value | .typeTest _ value | .checkedCast _ value | .dynamicHash _ value
  | .dynamicToString _ value | .runtimeTypeName _ value | .takeOrCopy _ value | .hashValue _ value | .wrapOptional _ value
  | .optionalPresence _ value | .optionalPayload _ value | .stringLength _ value | .stringToBytes _ value | .intToString _ value
  | .charToString _ value | .boolToString _ value | .enumToString _ value | .doubleToString _ value | .jsonEscape _ value
  | .panic value => [value]
  | .call _ receiver arguments => (if receiver ≥ 0 then [receiver] else []) ++ arguments
  | .retainPtr address | .releasePtr address | .loadPtr _ address | .takePtr _ address | .weakLoad _ address | .weakRelease address
  | .atomicLoad _ address => [address]
  | .fieldAddress _ base | .optionalPayloadAddress _ base => [base]
  | .elementAddress _ array index | .boundsCheck array index => [array,index]
  | .storePtr address value | .weakStore address value | .atomicStore address value => [address,value]
  | .abandonConstruction object | .objectFieldAddress _ object => [object]
  | .closureCapture _ closure => [closure]
  | .closureCall _ closure arguments => closure :: arguments
  | .rangeCheck start stop length => [start,stop,length]
  | .arrayNew _ size => [size]
  | .arrayLength _ array | .arrayFreeze _ array => [array]
  | .arraySlice _ array start stop => [array,start,stop]
  | .atomicCompareSet _ address expected replacement => [address,expected,replacement]
  | .atomicAdd _ address amount => [address,amount]
  | .stringSubstring _ value start stop => [value,start,stop]
  | .stringByteAt _ value index => [value,index]
  | .stringFromBytes _ bytes => [bytes]
  | .foreignCall _ arguments => arguments
  | .cStringLift _ handle => [handle]
  | .captureTrace error | .errorTrace _ error => [error]
  | _ => []

def terminatorUsesOf : Terminator → List ℤ
  | .ret value => if value < 0 then [] else [value]
  | .jump _ => []
  | .branch condition _ _ => [condition]
  | .switch value _ _ _ => [value]
  | .unreachable => []
  | .tryCall _ receiver arguments _ _ _ => (if receiver ≥ 0 then [receiver] else []) ++ arguments
  | .tryClosureCall _ closure arguments _ _ _ => closure :: arguments
  | .propagate error => [error]

def successorsOfTerminator : Terminator → List ℤ
  | .ret _ => []
  | .jump target => [target]
  | .branch _ thenTarget elseTarget => [thenTarget,elseTarget]
  | .switch _ _ caseTargets defaultTarget => caseTargets ++ [defaultTarget]
  | .unreachable => []
  | .tryCall _ _ _ _ normalTarget unwindTarget => [normalTarget,unwindTarget]
  | .tryClosureCall _ _ _ _ normalTarget unwindTarget => [normalTarget,unwindTarget]
  | .propagate _ => []

def successorsOf (block : Block) : List ℤ :=
  match block.terminator with
  | none => []
  | some terminator => successorsOfTerminator terminator

def callDefsFor (result errorResult normalTarget unwindTarget successor : ℤ) : List ℤ :=
  (if successor = normalTarget ∧ result ≥ 0 ∧ successor ≠ unwindTarget then [result] else []) ++
    (if successor = unwindTarget ∧ successor ≠ normalTarget then [errorResult] else [])

/-- The temps a terminator defines along its edge to a block. A block reached both ways has neither. -/
def terminatorDefsFor (terminator : Terminator) (successor : ℤ) : List ℤ :=
  match terminator with
  | .tryCall result _ _ errorResult normalTarget unwindTarget => callDefsFor result errorResult normalTarget unwindTarget successor
  | .tryClosureCall result _ _ errorResult normalTarget unwindTarget => callDefsFor result errorResult normalTarget unwindTarget successor
  | _ => []

end Ens.Eir
