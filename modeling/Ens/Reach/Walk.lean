import Ens.Reach.Program

/-! # The reachability walk

A worklist of symbols. Allocated classes and dispatched calls grow against each other: each new one is
combined with every one of the other kind found before it.
-/
namespace Ens.Reach
variable {T : Type} [DecidableEq T]

local instance lawfulSymbol : LawfulBEq Symbol := inferInstance

/-- One walk in progress. A set and the order its members were found in are one list here, and the body under
a symbol is asked of the source again. -/
structure Walk (T : Type) where
  reached : List Symbol := []
  descriptors : List T := []
  namedPlans : List (Plan T) := []
  pending : List Symbol := []
  instantiated : List T := []
  dispatched : List (Dispatch T) := []
  keptSlots : List Symbol := []
  keptImplementations : List Symbol := []

namespace Walk
variable (src : Source T) (library : Bool) (w : Walk T)

def reach (s : Symbol) : Walk T :=
  if s ∈ w.reached then w
  else if (src.bodyOf s).isSome then { w with reached := w.reached ++ [s], pending := w.pending ++ [s] }
  else w

def keep (key implementation : Symbol) : Walk T :=
  if key ∈ w.keptSlots then w
  else { w with keptSlots := w.keptSlots ++ [key], keptImplementations := w.keptImplementations ++ [implementation] }

def select (allocated : T) (call : Dispatch T) : Walk T :=
  match src.planOf allocated with
  | none => w
  | some plan =>
    if isBelow src plan call.through call.kind then
      match slotOf plan call.kind call.conformed call.index with
      | none => w
      | some implementation =>
        (w.keep (slotKey src plan call.kind call.conformed call.index) implementation).reach src implementation
    else w

def instantiate (allocated : T) : Walk T :=
  if allocated ∈ w.instantiated then w
  else w.dispatched.foldl (fun w d => w.select src allocated d) { w with instantiated := w.instantiated ++ [allocated] }

def dispatch (call : Dispatch T) : Walk T :=
  if call ∈ w.dispatched then w
  else w.instantiated.foldl (fun w t => w.select src t call) { w with dispatched := w.dispatched ++ [call] }

def reachImplementation (implementation : Symbol) : Walk T :=
  { w with keptImplementations := w.keptImplementations ++ [implementation] }.reach src implementation

def keepEverySlot (plan : Plan T) : Walk T := plan.implementations.foldl (reachImplementation src) w

def nameDescriptor : ℕ → Walk T → T → Walk T
  | 0, w, _ => w
  | k + 1, w, described =>
    if described ∈ w.descriptors then w
    else
      let w := { w with descriptors := w.descriptors ++ [described] }
      match src.planOf described with
      | none => w
      | some plan =>
        let w := { w with namedPlans := w.namedPlans ++ [plan] }
        let w := if library then w.keepEverySlot src plan else w
        (plan.parent.toList ++ plan.conformances.map Conformance.interfaceType).foldl (nameDescriptor k) w

def follow : Mention T → Walk T
  | .symbol s => w.reach src s
  | .descriptor t => nameDescriptor src library (src.height t + 1) w t
  | .allocation t => w.instantiate src t
  | .dispatch d => w.dispatch src d

def scan (s : Symbol) : Walk T :=
  match src.bodyOf s with
  | none => w
  | some body => body.mentions.foldl (follow src library) w

def start (libraryTypes : Option (List T)) (started : List Symbol) : Walk T :=
  started.foldl (reach src)
    ((libraryTypes.getD []).foldl (fun w t => nameDescriptor src libraryTypes.isSome (src.height t + 1) w t) {})

def serve : ℕ → Walk T → Walk T
  | 0, w => w
  | k + 1, w => match w.pending.getLast? with
    | none => w
    | some s => serve k ({ w with pending := w.pending.dropLast }.scan src library s)

end Walk

structure ReachedProgram (T : Type) where
  symbols : List Symbol
  order : List Symbol
  descriptors : List T
  plans : List (Plan T)
  keptSlots : List Symbol
  keptImplementations : List Symbol
  keepsEverySlot : Bool
  roots : List Symbol

def ReachedProgram.keepsSlot (r : ReachedProgram T) (src : Source T) (plan : Plan T) (kind : SlotKind) (conformed : Option T)
    (index : ℕ) : Bool := r.keepsEverySlot || decide (slotKey src plan kind conformed index ∈ r.keptSlots)

def Walk.found (w : Walk T) (library : Bool) (roots : List Symbol) : ReachedProgram T :=
  ⟨w.reached,w.reached,w.descriptors,w.namedPlans,w.keptSlots,w.keptImplementations,library,roots⟩

/-- The walk from some roots. A symbol is queued once, so the rounds are no more than the symbols defined. -/
def walkFrom (src : Source T) (started : List Symbol) (libraryTypes : Option (List T)) : ReachedProgram T :=
  (Walk.serve src libraryTypes.isSome src.defined.length (Walk.start src libraryTypes started)).found libraryTypes.isSome started

inductive Serves (src : Source T) (library : Bool) : Walk T → Walk T → Prop
  | one {w : Walk T} {a b : List Symbol} {s : Symbol} (h : w.pending = a ++ s :: b) :
    Serves src library w ({ w with pending := a ++ b }.scan src library s)

/-! ### What a walk marks -/

inductive Mark (T : Type)
  | body (s : Symbol)
  | descriptor (t : T)
  | slot (key : Symbol)

def Walk.marks (w : Walk T) : Set (Mark T)
  | .body s => s ∈ w.reached
  | .descriptor t => t ∈ w.descriptors
  | .slot key => key ∈ w.keptSlots

section
variable (src : Source T) (M : Set (Mark T))

/-- A marked body names it. -/
def Mentioned (x : Mention T) : Prop := ∃ s body, Mark.body s ∈ M ∧ src.bodyOf s = some body ∧ x ∈ body.mentions

/-- A call through a slot reads this key's slot of a class, which holds an implementation. -/
def Holds (t : T) (d : Dispatch T) (key implementation : Symbol) : Prop :=
  ∃ plan, src.planOf t = some plan ∧ Below src plan d.through d.kind ∧
    slotOf plan d.kind d.conformed d.index = some implementation ∧ key = slotKey src plan d.kind d.conformed d.index

structure Closed (libraryTypes : Option (List T)) (started : List Symbol) : Prop where
  root : ∀ s ∈ started, (src.bodyOf s).isSome → Mark.body s ∈ M
  symbol : ∀ s, Mentioned src M (.symbol s) → (src.bodyOf s).isSome → Mark.body s ∈ M
  descriptor : ∀ t, Mentioned src M (.descriptor t) → Mark.descriptor t ∈ M
  parent : ∀ t p q, Mark.descriptor t ∈ M → src.planOf t = some p → p.parent = some q → Mark.descriptor q ∈ M
  interface : ∀ t p, Mark.descriptor t ∈ M → src.planOf t = some p → ∀ c ∈ p.conformances, Mark.descriptor c.interfaceType ∈ M
  slot : ∀ t d key f, Mentioned src M (.allocation t) → Mentioned src M (.dispatch d) → Holds src t d key f → Mark.slot key ∈ M
  implementation : ∀ t d key f, Mentioned src M (.allocation t) → Mentioned src M (.dispatch d) → Holds src t d key f →
    (src.bodyOf f).isSome → Mark.body f ∈ M
  library : ∀ ts, libraryTypes = some ts → (∀ t ∈ ts, Mark.descriptor t ∈ M) ∧ ∀ t p, Mark.descriptor t ∈ M → src.planOf t = some p →
    ∀ f ∈ p.implementations, (src.bodyOf f).isSome → Mark.body f ∈ M

end

end Ens.Reach
