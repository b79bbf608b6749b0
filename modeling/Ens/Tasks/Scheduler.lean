import Ens.Logic.Exec
import Mathlib.Data.Fintype.Basic
import Mathlib.Logic.Function.Basic
import Mathlib.Tactic.Common

/-! # The workers of the pool

As many workers as processors take tasks from their processor's queue, the global queue and each
other's queues, and go to sleep when they find none; whoever queues a task wakes one. A thread
that looks for work, or wakes another to, is counted as searching, and no second one is then let
in. The supervisor takes no step, so a processor once held stays held.

The step of a thread is one operation on an atomic or one lock section. A worker's fields that no
other thread writes go with the operation before or after.
-/
namespace Ens.Tasks.Scheduler
open Exec
variable {n : ℕ} {U : Type} [DecidableEq U]

def idleWorker : ℕ := 10000

/-- Which `lookFor` of `nextTask` a worker is in: the first, the one of a round of
`lookForAWhile`, or the late one after it has registered as idle. -/
inductive Look
  | first
  | spin (k : ℕ)
  | late
  deriving DecidableEq, Repr

/-- How far a `lookFor` has come: about to pop the processor's queue, about to pop the global one,
about to rob the processor `k` places on, or about to push the tasks robbed but for the first. -/
inductive Stage
  | own
  | global
  | steal (k : ℕ)
  | moving (k : ℕ)
  deriving DecidableEq, Repr

/-- Where a thread is in `wakeIdle`: about to count itself in, about to take an idle worker, about
to count itself out since there is none, or about to wake the one it took. -/
inductive Waking (n : ℕ)
  | starts
  | pops
  | givesBack
  | wakes (w : Fin (n + 1))
  deriving DecidableEq, Repr

/-- Where a worker is: at the top of `nextTask`, in `acquireProcessor`, in `lookFor`, in
`startSearching`, in `lookForAWhile`, in `registerIdle`, in `stopSearching`, in `unregisterIdle`,
in one of the two `sleep`s, in `foundWork`, in a `wakeIdle` or inside a task. The bare places are
those it passes when no processor is free. -/
inductive At (n : ℕ)
  | top
  | acquires (i : ℕ)
  | takes (p : Fin (n + 1))
  | drops
  | looks (l : Look) (x : Stage)
  | starts
  | spinsOwn (k : ℕ)
  | spinsGlobal (k : ℕ)
  | registers
  | stops
  | stopEnds
  | unregisters
  | sleeps
  | sleepsFound
  | found
  | foundEnds
  | readsOwn
  | readsGlobal
  | wakeIdle (x : Waking n)
  | runs
  | stopsBare
  | stopEndsBare
  | registersBare
  deriving DecidableEq, Repr

/-- The queues as how many tasks they hold, the atomics, the idle list, and what each worker and
each other thread does. `flag` is a worker's `searching`. -/
structure State (n : ℕ) (U : Type) where
  queue : Fin (n + 1) → ℕ := fun _ => 0
  owner : Fin (n + 1) → Option (Fin (n + 1)) := fun _ => none
  global : ℕ := 0
  searching : ℤ := 0
  idle : List (Fin (n + 1)) := []
  processor : Fin (n + 1) → Option (Fin (n + 1)) := fun _ => none
  flag : Fin (n + 1) → Bool := fun _ => false
  woken : Fin (n + 1) → Bool := fun _ => false
  place : Fin (n + 1) → At n := fun _ => .top
  call : U → Option (Waking n) := fun _ => none

abbrev Thread (n : ℕ) (U : Type) := Fin (n + 1) ⊕ U

inductive Action (n : ℕ) (U : Type)
  | work (w : Fin (n + 1))
  | leave (w : Fin (n + 1))
  | makeRunnable (t : Thread n U)
  | wake (t : Thread n U)
  deriving DecidableEq, Repr

def At.waking : At n → Option (Waking n)
  | .wakeIdle x => some x
  | _ => none

namespace State

def goto (s : State n U) (w : Fin (n + 1)) (x : At n) : State n U := { s with place := Function.update s.place w x }

def push (s : State n U) (p : Fin (n + 1)) : State n U :=
  { s with queue := Function.update s.queue p (s.queue p + 1) }

def take (s : State n U) (p : Fin (n + 1)) (k : ℕ) : State n U :=
  { s with queue := Function.update s.queue p (s.queue p - k) }

def setFlag (s : State n U) (w : Fin (n + 1)) (b : Bool) : State n U := { s with flag := Function.update s.flag w b }

def setWoken (s : State n U) (w : Fin (n + 1)) (b : Bool) : State n U := { s with woken := Function.update s.woken w b }

def hold (s : State n U) (w : Fin (n + 1)) (p : Option (Fin (n + 1))) : State n U :=
  { s with processor := Function.update s.processor w p }

def waking (s : State n U) : Thread n U → Option (Waking n)
  | .inl w => (s.place w).waking
  | .inr u => s.call u

def wake (s : State n U) (t : Thread n U) (x : Option (Waking n)) : State n U :=
  match t with
  | .inl w => s.goto w (match x with
    | some x => .wakeIdle x
    | none => .runs)
  | .inr u => { s with call := Function.update s.call u x }

end State

def Look.found : Look → At n
  | .first => .found
  | .spin _ => .found
  | .late => .unregisters

def Look.nothing : Look → At n
  | .first => .starts
  | .spin k => .spinsOwn (k + 1)
  | .late => .sleeps

def victim (p : Fin (n + 1)) (k : ℕ) : Fin (n + 1) := Fin.ofNat (n + 1) (p.val + k)

def advance (s : State n U) (w : Fin (n + 1)) : Option (State n U) :=
  match s.place w with
  | .top =>
    match s.processor w with
    | some p => if s.owner p = some w then some (s.goto w (.looks .first .own)) else some ((s.hold w none).goto w (.acquires 0))
    | none => some (s.goto w (.acquires 0))
  | .acquires i =>
    if h : i < n + 1 then
      if s.owner ⟨i,h⟩ = none then
        some ({ s with owner := Function.update s.owner ⟨i,h⟩ (some w) }.goto w (.takes ⟨i,h⟩))
      else some (s.goto w (.acquires (i + 1)))
    else some (s.goto w .drops)
  | .takes p => some ((s.hold w (some p)).goto w (.looks .first .own))
  | .drops => some ((s.hold w none).goto w .stopsBare)
  | .looks l .own => do
    let p ← s.processor w
    if 0 < s.queue p then some ((s.take p 1).goto w l.found) else some (s.goto w (.looks l .global))
  | .looks l .global =>
    if 0 < s.global then some ({ s with global := s.global - 1 }.goto w l.found)
    else some (s.goto w (.looks l (.steal 1)))
  | .looks l (.steal k) => do
    let p ← s.processor w
    if k < n + 1 then
      let moving := (s.queue (victim p k) + 1) / 2
      if moving = 0 then some (s.goto w (.looks l (.steal (k + 1))))
      else some ((s.take (victim p k) moving).goto w (.looks l (.moving (moving - 1))))
    else some (s.goto w l.nothing)
  | .looks l (.moving 0) => some (s.goto w l.found)
  | .looks l (.moving (k + 1)) => do
    let p ← s.processor w
    some ((s.push p).goto w (.looks l (.moving k)))
  | .starts =>
    if s.flag w then some (s.goto w (.spinsOwn 0))
    else if s.searching = 0 then some (({ s with searching := 1 }.setFlag w true).goto w (.spinsOwn 0))
    else some (s.goto w .registers)
  | .spinsOwn k =>
    if k < idleWorker then do
      let p ← s.processor w
      if 0 < s.queue p then some (s.goto w (.looks (.spin k) .own)) else some (s.goto w (.spinsGlobal k))
    else some (s.goto w .registers)
  | .spinsGlobal k =>
    if 0 < s.global then some (s.goto w (.looks (.spin k) .own)) else some (s.goto w (.spinsOwn (k + 1)))
  | .registers => some ({ s with idle := s.idle ++ [w] }.goto w .stops)
  | .stops => if s.flag w then some ((s.setFlag w false).goto w .stopEnds) else some (s.goto w (.looks .late .own))
  | .stopEnds => some ({ s with searching := s.searching - 1 }.goto w (.looks .late .own))
  | .unregisters =>
    if w ∈ s.idle then some ({ s with idle := s.idle.erase w }.goto w .found) else some (s.goto w .sleepsFound)
  | .sleeps => if s.woken w then some ((s.setWoken w false).goto w .top) else none
  | .sleepsFound => if s.woken w then some ((s.setWoken w false).goto w .found) else none
  | .found => if s.flag w then some ((s.setFlag w false).goto w .foundEnds) else some (s.goto w .runs)
  | .foundEnds =>
    let left := s.searching - 1
    some ({ s with searching := left }.goto w (if left = 0 then .readsOwn else .runs))
  | .readsOwn => do
    let p ← s.processor w
    some (s.goto w (if 0 < s.queue p then .wakeIdle .starts else .readsGlobal))
  | .readsGlobal => some (s.goto w (if 0 < s.global then .wakeIdle .starts else .runs))
  | .wakeIdle _ => none
  | .runs => none
  | .stopsBare => if s.flag w then some ((s.setFlag w false).goto w .stopEndsBare) else some (s.goto w .registersBare)
  | .stopEndsBare => some ({ s with searching := s.searching - 1 }.goto w .registersBare)
  | .registersBare => some ({ s with idle := s.idle ++ [w] }.goto w .sleeps)

def wakeIdle (s : State n U) (t : Thread n U) : Waking n → State n U
  | .starts => if s.searching = 0 then { s with searching := 1 }.wake t (some .pops) else s.wake t none
  | .pops =>
    match s.idle.getLast? with
    | some w => { s with idle := s.idle.dropLast }.wake t (some (.wakes w))
    | none => s.wake t (some .givesBack)
  | .givesBack => { s with searching := s.searching - 1 }.wake t none
  | .wakes w => ((s.setFlag w true).setWoken w true).wake t none

/-- The push of a `makeRunnable`. A worker's goes to its processor, and wakes another worker when
more than one task waits there. -/
def makeRunnable (s : State n U) : Thread n U → Option (State n U)
  | .inl w =>
    if s.place w = .runs then
      match s.processor w with
      | some p =>
        if s.owner p = some w then
          some ((s.push p).wake (.inl w) (if 1 < s.queue p + 1 then some .starts else none))
        else some ((({ s with global := s.global + 1 }).hold w none).wake (.inl w) (some .starts))
      | none => some ({ s with global := s.global + 1 }.wake (.inl w) (some .starts))
    else none
  | .inr u =>
    if s.call u = none then some ({ s with global := s.global + 1 }.wake (.inr u) (some .starts)) else none

/-- One step of the pool: an operation of a worker, a task leaving its worker, or an operation of a
`makeRunnable`. -/
def step (s : State n U) : Action n U → Option (State n U)
  | .work w => advance s w
  | .leave w => if s.place w = .runs then some (s.goto w .top) else none
  | .makeRunnable t => makeRunnable s t
  | .wake t => (s.waking t).map (wakeIdle s t)

def init : State n U := {}

end Ens.Tasks.Scheduler
