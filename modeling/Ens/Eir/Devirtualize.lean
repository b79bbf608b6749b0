import Mathlib.Data.Int.Notation
import Mathlib.Data.List.Nodup
import Mathlib.Logic.Function.Basic
import Mathlib.Logic.Relation

/-! # Dispatched calls that go direct

A dispatched call whose receiver provably holds one class is called at the method that the dispatch table of the class holds. What a temp holds is
followed through casts that rename it and through slots, as far as every write to a slot can be seen.
-/
set_option linter.all false
namespace Ens.Devirtualize
open Relation

variable {C S : Type} [DecidableEq C]

/-! ### Functions -/

/-- A call. With no dispatch slot it goes to its symbol, and otherwise to what the receiver's table holds there. -/
structure Call (C S : Type) where
  result : ℤ
  receiver : ℤ
  arguments : List ℤ
  dispatchSlot : ℤ
  dispatchInterface : Option C
  symbol : S

def Call.uses (call : Call C S) : List ℤ := if 0 ≤ call.receiver then call.receiver :: call.arguments else call.arguments

inductive CastOp
  | reinterpret
  | convert
  deriving DecidableEq

/-- The instructions that say what class a temp holds, calls, and all others by what they define and read. -/
inductive Instruction (C S : Type)
  | classNew (result : ℤ) (type : C)
  | cast (result : ℤ) (op : CastOp) (operand : ℤ)
  | loadSlot (result : ℤ) (slot : ℕ)
  | storeSlot (slot : ℕ) (value : ℤ)
  | takeSlot (result : ℤ) (slot : ℕ)
  | slotAddress (result : ℤ) (slot : ℕ)
  | releasePtr (address : ℤ)
  | call (call : Call C S)
  | other (result : ℤ) (used : List ℤ)

def resultOf : Instruction C S → ℤ
  | .classNew result _ | .cast result _ _ | .loadSlot result _ | .takeSlot result _ | .slotAddress result _ | .other result _ => result
  | .call call => call.result
  | .storeSlot _ _ | .releasePtr _ => -1

def usesOf : Instruction C S → List ℤ
  | .cast _ _ operand => [operand]
  | .storeSlot _ value => [value]
  | .releasePtr address => [address]
  | .call call => call.uses
  | .other _ used => used
  | .classNew _ _ | .loadSlot _ _ | .takeSlot _ _ | .slotAddress _ _ => []

inductive Terminator (C S : Type)
  | tryCall (call : Call C S) (errorResult : ℤ) (normalTarget unwindTarget : ℕ)
  | other (defined used : List ℤ) (targets : List ℕ)

def Terminator.results : Terminator C S → List ℤ
  | .tryCall call errorResult _ _ => [call.result,errorResult]
  | .other defined _ _ => defined

def Terminator.uses : Terminator C S → List ℤ
  | .tryCall call _ _ _ => call.uses
  | .other _ used _ => used

def Terminator.targets : Terminator C S → List ℕ
  | .tryCall _ _ normalTarget unwindTarget => [normalTarget,unwindTarget]
  | .other _ _ targets => targets

structure Block (C S : Type) where
  instructions : List (Instruction C S)
  terminator : Terminator C S

/-- A function, whose receiver and parameters are the first temps. -/
structure EirFunction (C S : Type) where
  entryTempCount : ℕ
  tempCount : ℕ
  blocks : List (Block C S)

variable (f : EirFunction C S)

def EirFunction.instructions : List (Instruction C S) := f.blocks.flatMap Block.instructions

/-! ### The class a temp holds -/

def definitionOf (temp : ℤ) : Option (Instruction C S) :=
  if 0 ≤ temp ∧ temp < f.tempCount then f.instructions.reverse.find? (resultOf · = temp) else none

def usersOf (temp : ℤ) : List (Instruction C S) := f.instructions.filter (temp ∈ usesOf ·)

def isReleasePtr : Instruction C S → Bool
  | .releasePtr _ => true
  | _ => false

def slotRounds (stored : ℤ → Option C) (slot : ℕ) : List (Instruction C S) → Option C → Option C
  | [], agreed => agreed
  | .takeSlot _ s :: rest, agreed => if s = slot then none else slotRounds stored slot rest agreed
  | .slotAddress result s :: rest, agreed =>
    if s = slot ∧ (usersOf f result).all isReleasePtr = false then none else slotRounds stored slot rest agreed
  | .storeSlot s value :: rest, agreed =>
    if s = slot then
      match stored value, agreed with
      | none, _ => none
      | some found, none => slotRounds stored slot rest (some found)
      | some found, some known => if known = found then slotRounds stored slot rest (some known) else none
    else slotRounds stored slot rest agreed
  | _ :: rest, agreed => slotRounds stored slot rest agreed

def exactSlotType (stored : ℤ → Option C) (slot : ℕ) : Option C := slotRounds f stored slot f.instructions none

/-- The class of a temp from those of the temps it is made of, one level down for a cast and two for what a slot holds. -/
def exactBy (operand stored : ℤ → Option C) (temp : ℤ) : Option C :=
  match definitionOf f temp with
  | some (.classNew _ type) => some type
  | some (.cast _ op value) => if op = .reinterpret then operand value else none
  | some (.loadSlot _ slot) => exactSlotType f stored slot
  | _ => none

def exactTypeOf : ℕ → ℤ → Option C
  | 0 => fun _ => none
  | 1 => exactBy f (fun _ => none) fun _ => none
  | levels + 2 => exactBy f (exactTypeOf (levels + 1)) (exactTypeOf levels)

/-! ### Direct calls -/

structure DescriptorPlan (C S : Type) where
  vtable : List (Option S)
  conformances : List (C × List (Option S))

def slotIn (table : List (Option S)) (slot : ℕ) : Option S :=
  if slot < table.length then (table[slot]?).join else none

def conformanceTarget (slot : ℕ) (interfaceType : C) : List (C × List (Option S)) → Option S
  | [] => none
  | conformance :: rest =>
    if conformance.1 ≠ interfaceType then conformanceTarget slot interfaceType rest else slotIn conformance.2 slot

def singleTarget (plans : C → Option (DescriptorPlan C S)) (call : Call C S) : Option S := do
  let exact ← exactTypeOf f 17 call.receiver
  let plan ← plans exact
  match call.dispatchInterface with
  | none => slotIn plan.vtable call.dispatchSlot.toNat
  | some interfaceType => conformanceTarget call.dispatchSlot.toNat interfaceType plan.conformances

def retargeted (plans : C → Option (DescriptorPlan C S)) (call : Call C S) : Call C S :=
  if 0 ≤ call.dispatchSlot then
    match singleTarget f plans call with
    | some target => { call with symbol := target, dispatchSlot := -1, dispatchInterface := none }
    | none => call
  else call

def itableLookup (interfaceType : C) (entries : List (C × List (Option S))) : Option (List (Option S)) :=
  (entries.find? (·.1 = interfaceType)).map Prod.snd

def DescriptorPlan.table (plan : DescriptorPlan C S) : Option C → Option (List (Option S))
  | none => some plan.vtable
  | some interfaceType => itableLookup interfaceType plan.conformances

/-- What a call runs over an object of a class: its symbol, or what is loaded from the tables of the class. -/
def calledOver (plans : C → Option (DescriptorPlan C S)) (type : C) (call : Call C S) : Option S :=
  if call.dispatchSlot < 0 then some call.symbol
  else do
    let plan ← plans type
    let table ← plan.table call.dispatchInterface
    (table[call.dispatchSlot.toNat]?).join

/-! ### Runs -/

inductive Value (C : Type)
  | null
  | object (type : C)
  | address (slot : ℕ)
  | plain

structure State (C : Type) where
  block : ℕ
  index : ℕ
  temps : ℤ → Value C
  slots : ℕ → Value C

/-- The temps that hold the address of a slot. -/
def Given (temps : ℤ → Value C) (used : List ℤ) (slot : ℕ) : Prop := ∃ temp ∈ used, temps temp = .address slot

/-- What an instruction does to the temps and the slots. One that is given the address of a slot may write it, or give it on, and no other. -/
inductive Does : Instruction C S → (ℤ → Value C) → (ℕ → Value C) → (ℤ → Value C) → (ℕ → Value C) → Prop
  | classNew {result type temps slots} : Does (.classNew result type) temps slots (Function.update temps result (.object type)) slots
  | reinterpret {result operand temps slots} :
    Does (.cast result .reinterpret operand) temps slots (Function.update temps result (temps operand)) slots
  | loadSlot {result slot temps slots} : Does (.loadSlot result slot) temps slots (Function.update temps result (slots slot)) slots
  | storeSlot {slot value temps slots} : Does (.storeSlot slot value) temps slots temps (Function.update slots slot (temps value))
  | takeSlot {result slot temps slots} :
    Does (.takeSlot result slot) temps slots (Function.update temps result (slots slot)) (Function.update slots slot .null)
  | slotAddress {result slot temps slots} :
    Does (.slotAddress result slot) temps slots (Function.update temps result (.address slot)) slots
  | releasePtr {address slot temps slots} : temps address = .address slot →
    Does (.releasePtr address) temps slots temps (Function.update slots slot .null)
  | releaseOther {address temps slots} : (∀ slot, temps address ≠ .address slot) → Does (.releasePtr address) temps slots temps slots
  | convert {result operand temps slots value} : (∀ slot, value = .address slot → temps operand = .address slot) →
    Does (.cast result .convert operand) temps slots (Function.update temps result value) slots
  | call {call : Call C S} {temps slots value slots'} : (∀ slot, value ≠ .address slot) →
    (∀ slot, slots' slot = slots slot ∨ Given temps call.uses slot ∧ ∀ other, slots' slot ≠ .address other) →
    Does (.call call) temps slots (Function.update temps call.result value) slots'
  | other {result used temps slots value slots'} : (∀ slot, value = .address slot → Given temps used slot) →
    (∀ slot, slots' slot = slots slot ∨ Given temps used slot ∧ ∀ other, slots' slot ≠ .address other) →
    Does (.other result used) temps slots (Function.update temps result value) slots'

/-- What a terminator does: it defines its results, and what it calls may write the slots it is given the address of. -/
structure Leaves (terminator : Terminator C S) (temps : ℤ → Value C) (slots : ℕ → Value C) (temps' : ℤ → Value C)
    (slots' : ℕ → Value C) : Prop where
  keptTemps : ∀ temp, temps' temp = temps temp ∨ temp ∈ terminator.results ∧ ∀ slot, temps' temp ≠ .address slot
  keptSlots : ∀ slot, slots' slot = slots slot ∨ Given temps terminator.uses slot ∧ ∀ other, slots' slot ≠ .address other

inductive Step : State C → State C → Prop
  | instruction {s : State C} {block instruction temps slots} : f.blocks[s.block]? = some block →
    block.instructions[s.index]? = some instruction → Does instruction s.temps s.slots temps slots →
    Step s ⟨s.block,s.index + 1,temps,slots⟩
  | terminator {s : State C} {block target temps slots} : f.blocks[s.block]? = some block → s.index = block.instructions.length →
    target ∈ block.terminator.targets → Leaves block.terminator s.temps s.slots temps slots → Step s ⟨target,0,temps,slots⟩

/-- A run begins with what the receiver and the parameters hold. Slots of references hold none yet. -/
structure Starts (s : State C) : Prop where
  block : s.block = 0
  index : s.index = 0
  temps : ∀ temp : ℤ, f.entryTempCount ≤ temp → s.temps temp = .plain
  addresses : ∀ temp slot, s.temps temp ≠ .address slot
  slots : ∀ slot, s.slots slot = .null ∨ s.slots slot = .plain

/-- No temp is assigned more than once, the receiver and the parameters being assigned when the function is called. -/
structure Verified : Prop where
  range : ∀ instruction ∈ f.instructions, resultOf instruction < f.tempCount
  entry : ∀ instruction ∈ f.instructions, 0 ≤ resultOf instruction → f.entryTempCount ≤ resultOf instruction
  once : ((f.instructions.filter fun instruction => 0 ≤ resultOf instruction).map resultOf).Nodup
  apart : ∀ block ∈ f.blocks, ∀ result ∈ block.terminator.results, 0 ≤ result →
    ∀ instruction ∈ f.instructions, resultOf instruction ≠ result

inductive Reaches : State C → Call C S → Prop
  | instruction {s : State C} {block call} : f.blocks[s.block]? = some block → block.instructions[s.index]? = some (.call call) → Reaches s call
  | terminator {s : State C} {block call errorResult normalTarget unwindTarget} : f.blocks[s.block]? = some block →
    s.index = block.instructions.length → block.terminator = .tryCall call errorResult normalTarget unwindTarget → Reaches s call

/-- What ends a block puts no object in a slot that it was not in. -/
def Quiet (s s' : State C) : Prop := ∀ block, f.blocks[s.block]? = some block → s.index = block.instructions.length →
  ∀ slot type, s'.slots slot = .object type → s.slots slot = .object type

/-! ### What an exact class rests on -/

variable {f} {stored : ℤ → Option C} {slot : ℕ} {type : C} {temp : ℤ} {levels : ℕ} {i : Instruction C S}

omit [DecidableEq C] in
theorem definitionOf_some (h : definitionOf f temp = some i) : i ∈ f.instructions ∧ resultOf i = temp ∧ 0 ≤ temp := by
  unfold definitionOf at h
  split at h
  · rename_i hrange
    have hresult := List.find?_some h
    exact ⟨List.mem_reverse.1 (List.mem_of_find?_eq_some h),by simpa using hresult,hrange.1⟩
  · cases h

omit [DecidableEq C] in
theorem Verified.unique (hv : Verified f) (hi : i ∈ f.instructions) {j : Instruction C S} (h : definitionOf f (resultOf i) = some j) : j = i := by
  obtain ⟨hj,hsame,hpos⟩ := definitionOf_some h
  refine List.inj_on_of_nodup_map hv.once ?_ ?_ hsame
  · exact List.mem_filter.2 ⟨hj,by simpa [hsame] using hpos⟩
  · exact List.mem_filter.2 ⟨hi,by simpa using hpos⟩

/-- What an instruction is to a slot that holds one class: it does not take the slot, gives its address to releases only, and stores that class. -/
def Agrees (f : EirFunction C S) (stored : ℤ → Option C) (slot : ℕ) (type : C) : Instruction C S → Prop
  | .takeSlot _ s => s ≠ slot
  | .slotAddress result s => s = slot → (usersOf f result).all isReleasePtr = true
  | .storeSlot s value => s = slot → stored value = some type
  | _ => True

theorem slotRounds_spec {l : List (Instruction C S)} {agreed : Option C} (h : slotRounds f stored slot l agreed = some type) :
    (agreed = none ∨ agreed = some type) ∧ ∀ i ∈ l, Agrees f stored slot type i := by
  induction l generalizing agreed with
  | nil => exact ⟨.inr h,by simp⟩
  | cons i l ih =>
    have hpass : slotRounds f stored slot l agreed = some type → Agrees f stored slot type i →
        (agreed = none ∨ agreed = some type) ∧ ∀ j ∈ i :: l, Agrees f stored slot type j := by
      intro hrest hi
      exact ⟨(ih hrest).1,List.forall_mem_cons.2 ⟨hi,(ih hrest).2⟩⟩
    cases i with
    | takeSlot result s =>
      rw [slotRounds] at h
      split at h
      · cases h
      · rename_i hs
        exact hpass h hs
    | slotAddress result s =>
      rw [slotRounds] at h
      split at h
      · cases h
      · rename_i hs
        exact hpass h fun he => by simpa using not_and.1 hs he
    | storeSlot s value =>
      unfold slotRounds at h
      split at h
      · split at h
        · cases h
        · rename_i found hfound
          obtain ⟨hagreed,hrest⟩ := ih h
          have hsame : found = type := by simpa using hagreed
          exact ⟨.inl rfl,List.forall_mem_cons.2 ⟨fun _ => by rw [hfound,hsame],hrest⟩⟩
        · rename_i found known hfound
          split at h
          · rename_i heq
            obtain ⟨hagreed,hrest⟩ := ih h
            have hsame : known = type := by simpa using hagreed
            exact ⟨.inr (by rw [hsame]),List.forall_mem_cons.2 ⟨fun _ => by rw [hfound,← heq,hsame],hrest⟩⟩
          · cases h
      · rename_i hs
        exact hpass h fun he => absurd he hs
    | classNew | cast | loadSlot | releasePtr | call | other => exact hpass h trivial

theorem exactSlotType_agrees (h : exactSlotType f stored slot = some type) : ∀ i ∈ f.instructions, Agrees f stored slot type i :=
  (slotRounds_spec h).2

theorem exactBy_cases {operand : ℤ → Option C} (h : exactBy f operand stored temp = some type) :
    (∃ result, definitionOf f temp = some (.classNew result type)) ∨
    (∃ result value, definitionOf f temp = some (.cast result .reinterpret value) ∧ operand value = some type) ∨
    ∃ result slot, definitionOf f temp = some (.loadSlot result slot) ∧ exactSlotType f stored slot = some type := by
  unfold exactBy at h
  split at h
  · rename_i result found hdef
    exact .inl ⟨result,by rw [hdef,Option.some.inj h]⟩
  · rename_i result op value hdef
    split at h
    · rename_i hop
      exact .inr (.inl ⟨result,value,by rw [hdef,hop],h⟩)
    · cases h
  · rename_i result slot hdef
    exact .inr (.inr ⟨result,slot,hdef,h⟩)
  · cases h

/-- A class is found for what a new object defines, for another name of a temp, and for what a slot holds. -/
theorem exactTypeOf_cases (h : exactTypeOf f levels temp = some type) :
    (∃ result, definitionOf f temp = some (.classNew result type)) ∨
    (∃ result value below, definitionOf f temp = some (.cast result .reinterpret value) ∧ exactTypeOf f below value = some type) ∨
    ∃ result slot below, definitionOf f temp = some (.loadSlot result slot) ∧ exactSlotType f (exactTypeOf f below) slot = some type := by
  match levels with
  | 0 => cases h
  | 1 =>
    rcases exactBy_cases h with h | ⟨result,value,h⟩ | ⟨result,slot,h⟩
    · exact .inl h
    · exact .inr (.inl ⟨result,value,0,h⟩)
    · exact .inr (.inr ⟨result,slot,0,h⟩)
  | levels + 2 =>
    rcases exactBy_cases h with h | ⟨result,value,h⟩ | ⟨result,slot,h⟩
    · exact .inl h
    · exact .inr (.inl ⟨result,value,levels + 1,h⟩)
    · exact .inr (.inr ⟨result,slot,levels,h⟩)

theorem exactTypeOf_defined (h : exactTypeOf f levels temp = some type) : ∃ i ∈ f.instructions, resultOf i = temp ∧ 0 ≤ temp := by
  rcases exactTypeOf_cases h with ⟨_,h⟩ | ⟨_,_,_,h,-⟩ | ⟨_,_,_,h,-⟩
  all_goals
    obtain ⟨hi,hresult,hpos⟩ := definitionOf_some h
    exact ⟨_,hi,hresult,hpos⟩

/-! ### Runs keep the classes found -/

/-- What holds between two steps: temps and slots of which a class is found hold objects of that class only, and the addresses of such slots are
held only by what takes them. -/
structure Inv (f : EirFunction C S) (s : State C) : Prop where
  temps : ∀ levels temp type, exactTypeOf f levels temp = some type → ∀ found, s.temps temp = .object found → found = type
  slots : ∀ levels slot type, exactSlotType f (exactTypeOf f levels) slot = some type → ∀ found, s.slots slot = .object found → found = type
  given : ∀ levels slot type, exactSlotType f (exactTypeOf f levels) slot = some type →
    ∀ temp, s.temps temp = .address slot → .slotAddress temp slot ∈ f.instructions
  unstored : ∀ levels slot type, exactSlotType f (exactTypeOf f levels) slot = some type → ∀ other, s.slots other ≠ .address slot

variable {s s' : State C}

theorem Starts.inv (h : Starts f s) (hv : Verified f) : Inv f s where
  temps levels temp type hexact found hfound := by
    obtain ⟨i,hi,rfl,hpos⟩ := exactTypeOf_defined hexact
    rw [h.temps _ (hv.entry i hi hpos)] at hfound
    cases hfound
  slots levels slot type _ found hfound := by
    rcases h.slots slot with hs | hs <;> rw [hs] at hfound <;> cases hfound
  given levels slot type _ temp htemp := absurd htemp (h.addresses temp slot)
  unstored levels slot type _ other hother := by
    rcases h.slots other with hs | hs <;> rw [hs] at hother <;> cases hother

theorem Inv.not_given (h : Inv f s) (hi : i ∈ f.instructions) (hrel : isReleasePtr i = false)
    (hexact : exactSlotType f (exactTypeOf f levels) slot = some type) {used : ℤ} (hused : used ∈ usesOf i) : s.temps used ≠ .address slot := by
  intro haddress
  have hagrees := exactSlotType_agrees hexact _ (h.given levels slot type hexact used haddress) rfl
  have hall := List.all_eq_true.1 hagrees i (List.mem_filter.2 ⟨hi,by simpa using hused⟩)
  rw [hrel] at hall
  cases hall

theorem Inv.put (h : Inv f s) (hv : Verified f) (hi : i ∈ f.instructions) {value : Value C} {slots : ℕ → Value C} {block index : ℕ}
    (htemps : ∀ levels type, exactTypeOf f levels (resultOf i) = some type → definitionOf f (resultOf i) = some i →
      ∀ found, value = .object found → found = type)
    (hslots : ∀ levels slot type, exactSlotType f (exactTypeOf f levels) slot = some type →
      (∀ found, slots slot = .object found → found = type) ∧ (value = .address slot → i = .slotAddress (resultOf i) slot) ∧
        ∀ other, slots other ≠ .address slot) :
    Inv f ⟨block,index,Function.update s.temps (resultOf i) value,slots⟩ where
  temps levels temp type hexact found hfound := by
    by_cases htemp : temp = resultOf i
    · subst htemp
      simp only [Function.update_self] at hfound
      refine htemps levels type hexact ?_ found hfound
      rcases exactTypeOf_cases hexact with ⟨_,hdef⟩ | ⟨_,_,_,hdef,-⟩ | ⟨_,_,_,hdef,-⟩
      all_goals rw [hdef,hv.unique hi hdef]
    · simp only [Function.update_of_ne htemp] at hfound
      exact h.temps levels temp type hexact found hfound
  slots levels slot type hexact := (hslots levels slot type hexact).1
  given levels slot type hexact temp htemp := by
    by_cases hresult : temp = resultOf i
    · subst hresult
      simp only [Function.update_self] at htemp
      rw [← (hslots levels slot type hexact).2.1 htemp]
      exact hi
    · simp only [Function.update_of_ne hresult] at htemp
      exact h.given levels slot type hexact temp htemp
  unstored levels slot type hexact := (hslots levels slot type hexact).2.2

theorem Inv.keep (h : Inv f s) {slots : ℕ → Value C} {block index : ℕ}
    (hslots : ∀ levels slot type, exactSlotType f (exactTypeOf f levels) slot = some type →
      (∀ found, slots slot = .object found → found = type) ∧ ∀ other, slots other ≠ .address slot) :
    Inv f ⟨block,index,s.temps,slots⟩ where
  temps := h.temps
  slots levels slot type hexact := (hslots levels slot type hexact).1
  given := h.given
  unstored levels slot type hexact := (hslots levels slot type hexact).2

theorem Inv.update (h : Inv f s) {written : ℕ} {value : Value C} (hexact : exactSlotType f (exactTypeOf f levels) slot = some type)
    (hvalue : slot = written → ∀ found, value = .object found → found = type) (haddress : value ≠ .address slot) :
    (∀ found, Function.update s.slots written value slot = .object found → found = type) ∧
      ∀ other, Function.update s.slots written value other ≠ .address slot := by
  constructor
  · intro found hfound
    by_cases hs : slot = written
    · rw [hs,Function.update_self] at hfound
      exact hvalue hs found hfound
    · rw [Function.update_of_ne hs] at hfound
      exact h.slots levels slot type hexact found hfound
  · intro other
    by_cases hs : other = written
    · rw [hs,Function.update_self]
      exact haddress
    · rw [Function.update_of_ne hs]
      exact h.unstored levels slot type hexact other

omit [DecidableEq C] in
theorem instruction_mem {block : Block C S} {b index : ℕ} (hb : f.blocks[b]? = some block) (hi : block.instructions[index]? = some i) :
    i ∈ f.instructions :=
  List.mem_flatMap.2 ⟨block,List.mem_of_getElem? hb,List.mem_of_getElem? hi⟩

theorem Inv.written (h : Inv f s) (hi : i ∈ f.instructions) (hrel : isReleasePtr i = false) {slots : ℕ → Value C}
    (hw : ∀ slot, slots slot = s.slots slot ∨ Given s.temps (usesOf i) slot ∧ ∀ other, slots slot ≠ .address other)
    (hexact : exactSlotType f (exactTypeOf f levels) slot = some type) :
    (∀ found, slots slot = .object found → found = type) ∧ ∀ other, slots other ≠ .address slot := by
  constructor
  · intro found hfound
    rcases hw slot with hsame | ⟨⟨used,hused,haddress⟩,-⟩
    · exact h.slots levels slot type hexact found (hsame ▸ hfound)
    · exact absurd haddress (h.not_given hi hrel hexact hused)
  · intro other hother
    rcases hw other with hsame | ⟨-,hno⟩
    · exact h.unstored levels slot type hexact other (hsame ▸ hother)
    · exact hno slot hother

theorem Inv.instruction (h : Inv f s) (hv : Verified f) (hi : i ∈ f.instructions) {temps : ℤ → Value C} {slots : ℕ → Value C}
    (hd : Does i s.temps s.slots temps slots) {block index : ℕ} : Inv f ⟨block,index,temps,slots⟩ := by
  have hkeep : ∀ {levels slot type}, exactSlotType f (exactTypeOf f levels) slot = some type →
      (∀ found, s.slots slot = .object found → found = type) ∧ ∀ other, s.slots other ≠ .address slot :=
    fun hexact => ⟨h.slots _ _ _ hexact,h.unstored _ _ _ hexact⟩
  cases hd with
  | classNew =>
    refine h.put hv hi (fun levels type hexact hdef found hfound => ?_) fun levels slot type hexact => ⟨(hkeep hexact).1,by simp,(hkeep hexact).2⟩
    rcases exactTypeOf_cases hexact with ⟨_,hd⟩ | ⟨_,_,_,hd,-⟩ | ⟨_,_,_,hd,-⟩
    all_goals cases hdef.symm.trans hd
    cases hfound
    rfl
  | reinterpret =>
    refine h.put hv hi (fun levels type hexact hdef found hfound => ?_) fun levels slot type hexact =>
      ⟨(hkeep hexact).1,fun hvalue => absurd hvalue (h.not_given hi rfl hexact (by simp [usesOf])),(hkeep hexact).2⟩
    rcases exactTypeOf_cases hexact with ⟨_,hd⟩ | ⟨_,_,below,hd,hoperand⟩ | ⟨_,_,_,hd,-⟩
    all_goals cases hdef.symm.trans hd
    exact h.temps below _ type hoperand found hfound
  | loadSlot =>
    refine h.put hv hi (fun levels type hexact hdef found hfound => ?_) fun levels slot type hexact =>
      ⟨(hkeep hexact).1,fun hvalue => absurd hvalue ((hkeep hexact).2 _),(hkeep hexact).2⟩
    rcases exactTypeOf_cases hexact with ⟨_,hd⟩ | ⟨_,_,_,hd,-⟩ | ⟨_,_,below,hd,hslot⟩
    all_goals cases hdef.symm.trans hd
    exact h.slots below _ type hslot found hfound
  | storeSlot =>
    rename_i written value
    refine h.keep fun levels slot type hexact => h.update hexact (fun hs => ?_) (h.not_given hi rfl hexact (by simp [usesOf]))
    exact h.temps levels value type (exactSlotType_agrees hexact _ hi hs.symm)
  | takeSlot =>
    refine h.put hv hi (fun levels type hexact hdef found hfound => ?_) fun levels slot type hexact => ⟨?_,?_,?_⟩
    · rcases exactTypeOf_cases hexact with ⟨_,hd⟩ | ⟨_,_,_,hd,-⟩ | ⟨_,_,_,hd,-⟩
      all_goals cases hdef.symm.trans hd
    · exact (h.update hexact (fun _ _ hnull => by cases hnull) (by simp)).1
    · exact fun hvalue => absurd hvalue ((hkeep hexact).2 _)
    · exact (h.update hexact (fun _ _ hnull => by cases hnull) (by simp)).2
  | slotAddress =>
    refine h.put hv hi (fun levels type hexact hdef found hfound => ?_) fun levels slot type hexact =>
      ⟨(hkeep hexact).1,fun hvalue => ?_,(hkeep hexact).2⟩
    · cases hfound
    · cases hvalue
      rfl
  | releasePtr => exact h.keep fun levels slot type hexact => h.update hexact (fun _ _ hnull => by cases hnull) (by simp)
  | releaseOther => exact h.keep fun levels slot type hexact => hkeep hexact
  | convert hvalue =>
    refine h.put hv hi (fun levels type hexact hdef found hfound => ?_) fun levels slot type hexact =>
      ⟨(hkeep hexact).1,fun haddress => absurd (hvalue slot haddress) (h.not_given hi rfl hexact (by simp [usesOf])),(hkeep hexact).2⟩
    rcases exactTypeOf_cases hexact with ⟨_,hd⟩ | ⟨_,_,_,hd,-⟩ | ⟨_,_,_,hd,-⟩
    all_goals cases hdef.symm.trans hd
  | call hvalue hw =>
    refine h.put hv hi (fun levels type hexact hdef found hfound => ?_) fun levels slot type hexact =>
      ⟨(h.written hi rfl hw hexact).1,fun haddress => absurd haddress (hvalue slot),(h.written hi rfl hw hexact).2⟩
    rcases exactTypeOf_cases hexact with ⟨_,hd⟩ | ⟨_,_,_,hd,-⟩ | ⟨_,_,_,hd,-⟩
    all_goals cases hdef.symm.trans hd
  | other hvalue hw =>
    refine h.put hv hi (fun levels type hexact hdef found hfound => ?_) fun levels slot type hexact =>
      ⟨(h.written hi rfl hw hexact).1,fun haddress => ?_,(h.written hi rfl hw hexact).2⟩
    · rcases exactTypeOf_cases hexact with ⟨_,hd⟩ | ⟨_,_,_,hd,-⟩ | ⟨_,_,_,hd,-⟩
      all_goals cases hdef.symm.trans hd
    · obtain ⟨used,hused,hgiven⟩ := hvalue slot haddress
      exact absurd hgiven (h.not_given hi rfl hexact hused)

theorem Inv.terminator (h : Inv f s) (hv : Verified f) {block : Block C S} (hb : f.blocks[s.block]? = some block) {temps : ℤ → Value C}
    {slots : ℕ → Value C} (hl : Leaves block.terminator s.temps s.slots temps slots)
    (hquiet : ∀ slot type, slots slot = .object type → s.slots slot = .object type) {target index : ℕ} :
    Inv f ⟨target,index,temps,slots⟩ where
  temps levels temp type hexact found hfound := by
    obtain ⟨i,hi,hresult,hpos⟩ := exactTypeOf_defined hexact
    rcases hl.keptTemps temp with hsame | ⟨hmem,-⟩
    · exact h.temps levels temp type hexact found (hsame ▸ hfound)
    · exact absurd hresult (hv.apart block (List.mem_of_getElem? hb) temp hmem hpos i hi)
  slots levels slot type hexact found hfound := h.slots levels slot type hexact found (hquiet slot found hfound)
  given levels slot type hexact temp htemp := by
    rcases hl.keptTemps temp with hsame | ⟨-,hno⟩
    · exact h.given levels slot type hexact temp (hsame ▸ htemp)
    · exact absurd htemp (hno slot)
  unstored levels slot type hexact other hother := by
    rcases hl.keptSlots other with hsame | ⟨-,hno⟩
    · exact h.unstored levels slot type hexact other (hsame ▸ hother)
    · exact absurd hother (hno slot)

theorem Inv.step (h : Inv f s) (hv : Verified f) (hs : Step f s s') (hquiet : Quiet f s s') : Inv f s' := by
  cases hs with
  | instruction hb hi hd => exact h.instruction hv (instruction_mem hb hi) hd
  | terminator hb hend _ hl => exact h.terminator hv hb hl (hquiet _ hb hend)

theorem Inv.run (h : Inv f s) (hv : Verified f) (hrun : ReflTransGen (fun s s' => Step f s s' ∧ Quiet f s s') s s') : Inv f s' := by
  induction hrun with
  | refl => exact h
  | tail _ hstep ih => exact ih.step hv hstep.1 hstep.2

/-! ### Direct calls -/

omit [DecidableEq C] in
theorem slotIn_loaded {table : List (Option S)} {slot : ℕ} {target : S} (h : slotIn table slot = some target) :
    (table[slot]?).join = some target := by
  unfold slotIn at h
  split at h
  · exact h
  · cases h

theorem conformanceTarget_loaded {slot : ℕ} {interfaceType : C} {conformances : List (C × List (Option S))} {target : S}
    (h : conformanceTarget slot interfaceType conformances = some target) :
    ∃ table, itableLookup interfaceType conformances = some table ∧ (table[slot]?).join = some target := by
  induction conformances with
  | nil => cases h
  | cons conformance rest ih =>
    rw [conformanceTarget] at h
    split at h
    · rename_i hne
      obtain ⟨table,htable,htarget⟩ := ih h
      exact ⟨table,by rw [itableLookup,List.find?_cons_of_neg (by simpa using hne)]; exact htable,htarget⟩
    · rename_i heq
      rw [not_not] at heq
      exact ⟨conformance.2,by rw [itableLookup,List.find?_cons_of_pos (by simpa using heq)]; rfl,slotIn_loaded h⟩

theorem calledOver_singleTarget (plans : C → Option (DescriptorPlan C S)) {call : Call C S} {target : S} (hslot : 0 ≤ call.dispatchSlot)
    (h : singleTarget f plans call = some target) (hexact : exactTypeOf f 17 call.receiver = some type) :
    calledOver plans type call = some target := by
  obtain ⟨exact,he,h⟩ := Option.bind_eq_some_iff.1 h
  obtain rfl := Option.some.inj (he.symm.trans hexact)
  obtain ⟨plan,hplan,h⟩ := Option.bind_eq_some_iff.1 h
  have htable : ∃ table, plan.table call.dispatchInterface = some table ∧ (table[call.dispatchSlot.toNat]?).join = some target := by
    generalize call.dispatchInterface = interface at h ⊢
    cases interface with
    | none => exact ⟨plan.vtable,rfl,slotIn_loaded h⟩
    | some interfaceType => exact conformanceTarget_loaded h
  obtain ⟨table,htable,htarget⟩ := htable
  rw [calledOver,if_neg (by omega),hplan]
  simp [htable,htarget]

/-- In every run whose blocks end without a foreign object in a slot, a dispatched call that goes direct goes to what would be loaded from the tables
of the receiver's class, which is the one found. -/
theorem retargeted_runs (hv : Verified f) (plans : C → Option (DescriptorPlan C S)) {s₀ : State C} (h₀ : Starts f s₀)
    (hrun : ReflTransGen (fun s s' => Step f s s' ∧ Quiet f s s') s₀ s) {call : Call C S} (_ : Reaches f s call) {type : C}
    (hobject : s.temps call.receiver = .object type) :
    (∀ target, singleTarget f plans call = some target → exactTypeOf f 17 call.receiver = some type) ∧
      calledOver plans type (retargeted f plans call) = calledOver plans type call := by
  have hinv := (h₀.inv hv).run hv hrun
  have hexact : ∀ target, singleTarget f plans call = some target → exactTypeOf f 17 call.receiver = some type := by
    intro target htarget
    obtain ⟨exact,hexact,-⟩ := Option.bind_eq_some_iff.1 htarget
    rw [hexact,hinv.temps 17 call.receiver exact hexact type hobject]
  refine ⟨hexact,?_⟩
  rw [retargeted]
  split
  · rename_i hdispatch
    split
    · rename_i target htarget
      rw [calledOver_singleTarget plans hdispatch htarget (hexact target htarget)]
      rfl
    · rfl
  · rfl

/-- A new object is put in a slot, and a call that may throw is given the address of the slot before a call is dispatched over what the slot holds. -/
def handed : EirFunction ℕ ℕ where
  entryTempCount := 0
  tempCount := 5
  blocks :=
    [⟨[.classNew 0 0,.storeSlot 0 0,.slotAddress 1 0],.tryCall ⟨-1,-1,[1],-1,none,20⟩ 2 1 2⟩,
      ⟨[.loadSlot 3 0,.call ⟨4,3,[],0,none,30⟩],.other [] [] []⟩,⟨[],.other [] [2] []⟩]

def handedPlans (type : ℕ) : Option (DescriptorPlan ℕ ℕ) := some ⟨[some (10 + type)],[]⟩

theorem handed_verified : Verified handed where
  range := by decide
  entry := by decide
  once := by decide
  apart := by decide

theorem handed_starts : Starts handed ⟨0,0,fun _ => .plain,fun _ => .null⟩ := ⟨rfl,rfl,fun _ _ => rfl,by simp,by simp⟩

def handedTemps : ℤ → Value ℕ := Function.update (Function.update (fun _ => .plain) 0 (.object 0)) 1 (.address 0)

def handedSlots : ℕ → Value ℕ := Function.update (fun _ => .null) 0 (.object 0)

def handedLeft (type : ℕ) : ℕ → Value ℕ := Function.update handedSlots 0 (.object type)

def handedReached (type : ℕ) : State ℕ := ⟨1,1,Function.update handedTemps 3 (handedLeft type 0),handedLeft type⟩

theorem handed_leaves (type : ℕ) : Leaves (handed.blocks[0]).terminator handedTemps handedSlots handedTemps (handedLeft type) where
  keptTemps _ := .inl rfl
  keptSlots slot := by
    by_cases hs : slot = 0
    · subst hs
      exact .inr ⟨⟨1,by decide,by simp [handedTemps]⟩,by simp [handedLeft]⟩
    · exact .inl (Function.update_of_ne hs _ _)

theorem handed_run (type : ℕ) : ReflTransGen (fun s s' => Step handed s s' ∧ (type = 0 → Quiet handed s s'))
    ⟨0,0,fun _ => .plain,fun _ => .null⟩ (handedReached type) := by
  have hinside : ∀ {s s' : State ℕ} {block}, handed.blocks[s.block]? = some block → s.index < block.instructions.length →
      Quiet handed s s' := by
    intro s s' block hb hlt block' hb' hend
    cases hb.symm.trans hb'
    omega
  have hnew : Step handed ⟨0,0,fun _ => .plain,fun _ => .null⟩ ⟨0,1,Function.update (fun _ => .plain) 0 (.object 0),fun _ => .null⟩ :=
    .instruction rfl rfl .classNew
  have hstore : Step handed ⟨0,1,Function.update (fun _ => .plain) 0 (.object 0),fun _ => .null⟩
      ⟨0,2,Function.update (fun _ => .plain) 0 (.object 0),handedSlots⟩ := .instruction rfl rfl .storeSlot
  have haddress : Step handed ⟨0,2,Function.update (fun _ => .plain) 0 (.object 0),handedSlots⟩ ⟨0,3,handedTemps,handedSlots⟩ :=
    .instruction rfl rfl .slotAddress
  have hcall : Step handed ⟨0,3,handedTemps,handedSlots⟩ ⟨1,0,handedTemps,handedLeft type⟩ :=
    .terminator rfl rfl (by decide) (handed_leaves type)
  have hload : Step handed ⟨1,0,handedTemps,handedLeft type⟩ (handedReached type) := .instruction rfl rfl .loadSlot
  have hquiet : type = 0 → Quiet handed ⟨0,3,handedTemps,handedSlots⟩ ⟨1,0,handedTemps,handedLeft type⟩ := by
    rintro rfl block _ _ slot found hfound
    have hsame : handedLeft 0 = handedSlots := by simp [handedLeft,handedSlots]
    rwa [← hsame]
  refine .head ⟨hnew,fun _ => hinside rfl (by decide)⟩ ?_
  refine .head ⟨hstore,fun _ => hinside rfl (by decide)⟩ ?_
  refine .head ⟨haddress,fun _ => hinside rfl (by decide)⟩ ?_
  refine .head ⟨hcall,hquiet⟩ ?_
  exact .single ⟨hload,fun _ => hinside rfl Nat.zero_lt_two⟩

theorem handed_reaches (type : ℕ) : Reaches handed (handedReached type) ⟨4,3,[],0,none,30⟩ := .instruction rfl rfl

theorem handed_receiver (type : ℕ) : (handedReached type).temps 3 = .object type := by
  simp [handedReached,handedLeft]

theorem retargeted_handed :
    (∀ target, singleTarget handed handedPlans ⟨4,3,[],0,none,30⟩ = some target → exactTypeOf handed 17 3 = some 0) ∧
      calledOver handedPlans 0 (retargeted handed handedPlans ⟨4,3,[],0,none,30⟩) = calledOver handedPlans 0 ⟨4,3,[],0,none,30⟩ :=
  retargeted_runs handed_verified handedPlans handed_starts
    (ReflTransGen.mono (fun _ _ h => ⟨h.1,h.2 rfl⟩) _ _ (handed_run 0)) (handed_reaches 0) (handed_receiver 0)

/-- The call puts an object of another class in the slot, and the dispatched call is sent to the method of the first. -/
theorem not_retargeted_runs : ¬ ∀ (f : EirFunction ℕ ℕ) (plans : ℕ → Option (DescriptorPlan ℕ ℕ)), Verified f →
    ∀ s₀, Starts f s₀ → ∀ s, ReflTransGen (Step f) s₀ s → ∀ call, Reaches f s call → ∀ type, s.temps call.receiver = .object type →
      (∀ target, singleTarget f plans call = some target → exactTypeOf f 17 call.receiver = some type) ∧
        calledOver plans type (retargeted f plans call) = calledOver plans type call := by
  intro h
  have hwrong := h handed handedPlans handed_verified _ handed_starts (handedReached 1)
    (ReflTransGen.mono (fun _ _ h => h.1) _ _ (handed_run 1)) _ (handed_reaches 1) 1 (handed_receiver 1)
  exact absurd hwrong.2 (by decide)

end Ens.Devirtualize
