import Ens.Tasks.ParkStage
import Mathlib.Algebra.Group.Nat.Defs

/-! # The waits of one task

A task on the pool waits for events, sleeps and waits under monitors. Each wait has a waiter of its
own, which the events thread, another thread under the monitor or a cancel wakes, and whoever wakes
it first unparks the task. The park state belongs to the task and outlives the wait.
-/
set_option linter.all false
namespace Ens.Tasks.Waits
open Park
variable {W U : Type} [DecidableEq W] [DecidableEq U]

inductive WatchState
  | watching
  | ready
  | unwatchable
  | failed
  deriving DecidableEq, Repr

inductive EventEnd
  | arrived
  | unwatched
  | cancelled
  | failed
  deriving DecidableEq, Repr

inductive Call
  | events (deadline : ℤ)
  | sleep (deadline : ℤ)
  | monitor (blocks : Bool) (millis : ℤ)
  deriving DecidableEq, Repr

/-- The wait of one waiter: what it is for, the token it is watched under, the flags by which the
task would see itself cancelled, and whether one of its watches was ready. -/
structure Wait where
  call : Call := .events (-1)
  token : Option ℕ := none
  flags : List ℕ := []
  ready : Bool := false

/-- How a call returned: with the end of an event wait and its code, from a sleep, with `Cancelled`
thrown, or from a monitor. -/
inductive Outcome
  | event (kind : EventEnd) (code : ℤ)
  | slept
  | threw
  | waited (unlessCancelled : Bool)
  deriving DecidableEq, Repr

/-- Where a call asks `isCancelled`: first of all, at the head of the loop of `sleep`, between
`block` and the wait, and after the wait. -/
inductive Check
  | first (watches : ℕ) (deadline : ℤ)
  | loop (deadline : ℤ)
  | skip (w : ℕ)
  | last (w : ℕ)
  deriving DecidableEq, Repr

inductive Phase
  | starts
  | runs
  | ended
  | sleeps (deadline : ℤ)
  | consults (c : Check)
  | reads (c : Check) (flags : List ℕ)
  | enlists (watches : ℕ) (deadline : ℤ)
  | watches (w left : ℕ)
  | drops (w : ℕ) (kind : EventEnd) (code : ℤ)
  | blocks (w : ℕ)
  | lists (w : ℕ)
  | schedules (w : ℕ) (deadline : ℤ)
  | parks (w : ℕ)
  | parked (w : ℕ)
  | resumes (w : ℕ)
  | unblocks (w : ℕ) (waited : Bool)
  | discharges (w : ℕ)
  | answers (w : Option ℕ) (o : Outcome)
  deriving DecidableEq, Repr

/-- A thread that is to wake the task: a cancel that has set its flag, or has then taken the waiter
the task is blocked on, and a thread that has taken a waiter off a monitor's list. -/
inductive Waker
  | idle
  | cancels (f : ℕ)
  | holds (f w : ℕ)
  | signals (w : ℕ)
  deriving DecidableEq, Repr

inductive Events
  | polls
  | polled (tokens : List ℕ)
  | wakes (due : List ℕ)
  deriving DecidableEq, Repr

/-- One task and whoever wakes it. The scopes whose bodies it runs stand innermost first, each by
its flag. `timed`, `fired`, `signalled` and `gaveUp` are history: the timers set, the tokens the
poller returned, the waiters taken off a monitor's list to be woken, and the waiters whose wait the
task gave up without parking. -/
structure State (W U : Type) where
  park : Park.State W (Option U) := Park.init
  phase : Phase := .starts
  bodies : List ℕ := []
  asked : ℕ → Bool := fun _ => false
  blockedOn : Option ℕ := none
  issued : ℕ := 0
  waits : ℕ → Wait := fun _ => {}
  woken : ℕ → Bool := fun _ => false
  listed : ℕ → Bool := fun _ => false
  lastToken : ℕ := 0
  watched : ℕ → Option ℕ := fun _ => none
  timers : List (ℤ × ℕ) := []
  events : Events := .polls
  clock : ℤ := 0
  wakers : U → Waker := fun _ => .idle
  timed : List (ℤ × ℕ) := []
  fired : List ℕ := []
  signalled : ℕ → Bool := fun _ => false
  gaveUp : ℕ → Bool := fun _ => false

def init : State W U := {}

inductive Action (W U : Type)
  | enterBody (f : ℕ)
  | leaveBody
  | awaitEvents (watches : ℕ) (deadline : ℤ)
  | sleep (millis : ℤ)
  | wait (blocks : Bool) (millis : ℤ)
  | watched (x : WatchState) (code : ℤ)
  | next
  | park (v : W)
  | finish (v : W)
  | take (v : W)
  | completeSwap (v : W)
  | completeWrite (v : W)
  | completeQueue (v : W)
  | read (x : Option U)
  | swap (x : Option U)
  | queue (x : Option U)
  | cancel (u : U) (f : ℕ)
  | capture (u : U)
  | cancelled (u : U)
  | signal (u : U) (w : ℕ)
  | wake (u : U)
  | poll (tokens : List ℕ)
  | collect
  | wakeDue (w : ℕ)
  | pollAgain
  | otherEnlists
  | tick

def long (x : ℤ) : ℤ := x.bmod (2 ^ 64)

def State.goto (s : State W U) (x : Phase) : State W U := { s with phase := x }

def State.giveUp (s : State W U) (w : ℕ) : State W U := { s with gaveUp := Function.update s.gaveUp w true }

def State.setWaker (s : State W U) (u : U) (x : Waker) : State W U :=
  { s with wakers := Function.update s.wakers u x }

variable (own : List ℕ)

def State.flags (s : State W U) : List ℕ := s.bodies ++ own

def State.issue (s : State W U) (call : Call) (token : Option ℕ) : State W U :=
  { s with
    issued := s.issued + 1
    waits := Function.update s.waits s.issued { call := call, token := token, flags := s.flags own } }

def State.await (s : State W U) (w : ℕ) (deadline : ℤ) : State W U :=
  s.goto (if 0 ≤ deadline then .schedules w deadline else .parks w)

def State.stop (s : State W U) : Check → State W U
  | .first _ _ => s.goto (.answers none (.event .cancelled 0))
  | .loop _ => s.goto (.answers none .threw)
  | .skip w => (s.giveUp w).goto (.unblocks w false)
  | .last w =>
    match (s.waits w).call with
    | .events _ => s.goto (.answers (some w) (.event .cancelled 0))
    | .sleep _ => s.goto (.answers (some w) .threw)
    | .monitor _ _ => s.goto (.answers (some w) (.waited false))

def State.goOn (s : State W U) : Check → State W U
  | .first n deadline => s.goto (.enlists n deadline)
  | .loop deadline => (s.issue own (.sleep deadline) none).goto (.blocks s.issued)
  | .skip w =>
    match (s.waits w).call with
    | .events deadline | .sleep deadline => s.await w deadline
    | .monitor _ _ => s.goto (.lists w)
  | .last w =>
    match (s.waits w).call with
    | .events _ => s.goto (.answers (some w) (.event .arrived 0))
    | .sleep deadline => s.goto (.sleeps deadline)
    | .monitor _ _ => s.goto (.answers (some w) (.waited true))

def State.next (s : State W U) : Option (State W U) :=
  match s.phase with
  | .sleeps deadline =>
    some (if s.clock < deadline then s.goto (.consults (.loop deadline)) else s.goto (.answers none .slept))
  | .consults c => some (s.goto (.reads c (s.flags own)))
  | .reads c [] => some (s.goOn own c)
  | .reads c (f :: rest) => some (if s.asked f then s.stop c else s.goto (.reads c rest))
  | .enlists n deadline =>
    let token := s.lastToken + 1
    some { (s.issue own (.events deadline) (some token)).goto (.watches s.issued n) with
      lastToken := token
      watched := Function.update s.watched token (some s.issued) }
  | .drops w kind code =>
    some { s.goto (.answers (some w) (.event kind code)) with
      watched := (s.waits w).token.elim s.watched fun t => Function.update s.watched t none }
  | .blocks w => some { s.goto (.consults (.skip w)) with blockedOn := some w }
  | .lists w =>
    match (s.waits w).call with
    | .monitor _ millis =>
      some { s.await w (if 0 ≤ millis then long (s.clock + millis) else -1) with
        listed := Function.update s.listed w true }
    | _ => none
  | .schedules w deadline =>
    some { s.goto (.parks w) with timers := (deadline,w) :: s.timers, timed := (deadline,w) :: s.timed }
  | .resumes w =>
    match (s.waits w).call with
    | .monitor blocks _ =>
      some { s.goto (if blocks then .unblocks w true else .answers (some w) (.waited true)) with
        listed := Function.update s.listed w false }
    | _ => some (s.goto (.unblocks w true))
  | .unblocks w waited =>
    match (s.waits w).call with
    | .events _ => some { s.goto (.discharges w) with blockedOn := none }
    | .sleep _ => some { s.goto (.consults (.last w)) with blockedOn := none }
    | .monitor _ _ =>
      some { s.goto (if waited then .consults (.last w) else .answers (some w) (.waited false)) with blockedOn := none }
  | .discharges w =>
    some { s.goto (.consults (.last w)) with
      watched := (s.waits w).token.elim s.watched fun t => Function.update s.watched t none }
  | .answers _ _ => some (s.goto .runs)
  | .starts | .runs | .ended | .watches _ _ | .parks _ | .parked _ => none

def State.wake (s : State W U) (x : Option U) (w : ℕ) : Option (State W U) :=
  if s.woken w then some s
  else (Park.step s.park (.unpark x)).map fun p => { s with woken := Function.update s.woken w true, park := p }

def collect : List ℕ → (ℕ → Option ℕ) → List ℕ × (ℕ → Option ℕ)
  | [], watched => ([],watched)
  | t :: tokens, watched =>
    match watched t with
    | some w =>
      let (ws,rest) := collect tokens (Function.update watched t none)
      (w :: ws,rest)
    | none => collect tokens watched

-- derives the equations once, for all the proofs below
attribute [local grind =] collect

def State.watch (s : State W U) (w left : ℕ) (code : ℤ) : WatchState → State W U
  | .watching => s.goto (if left = 1 then .blocks w else .watches w (left - 1))
  | .ready =>
    { (s.giveUp w).goto (.drops w .arrived 0) with waits := Function.update s.waits w { s.waits w with ready := true } }
  | .unwatchable => (s.giveUp w).goto (.drops w .unwatched 0)
  | .failed => (s.giveUp w).goto (.drops w .failed code)

def step (s : State W U) : Action W U → Option (State W U)
  | .enterBody f => if s.phase = .runs ∧ f ∉ s.flags own then some { s with bodies := f :: s.bodies } else none
  | .leaveBody => if s.phase = .runs then some { s with bodies := s.bodies.tail } else none
  | .awaitEvents watches deadline =>
    if s.phase = .runs then
      some (s.goto (if watches = 0 then .answers none (.event .unwatched 0) else .consults (.first watches deadline)))
    else none
  | .sleep millis =>
    if s.phase = .runs then
      some (if millis ≤ 0 then s.goto (.answers none .slept) else s.goto (.sleeps (long (s.clock + millis))))
    else none
  | .wait blocks millis =>
    if s.phase = .runs then
      some ((s.issue own (.monitor blocks millis) none).goto (if blocks then .blocks s.issued else .lists s.issued))
    else none
  | .watched x code =>
    match s.phase with
    | .watches w left => some (s.watch w left code x)
    | _ => none
  | .next => s.next own
  | .park v =>
    match s.phase with
    | .parks w => (Park.step s.park (.park v)).map fun p => { s.goto (.parked w) with park := p }
    | _ => none
  | .finish v =>
    if s.phase = .runs then (Park.step s.park (.finish v)).map fun p => { s.goto .ended with park := p } else none
  | .take v =>
    (Park.step s.park (.take v)).bind fun p =>
      match s.phase with
      | .starts => some { s.goto .runs with park := p }
      | .parked w => some { s.goto (.resumes w) with park := p }
      | _ => none
  | .completeSwap v => (Park.step s.park (.completeSwap v)).map fun p => { s with park := p }
  | .completeWrite v => (Park.step s.park (.completeWrite v)).map fun p => { s with park := p }
  | .completeQueue v => (Park.step s.park (.completeQueue v)).map fun p => { s with park := p }
  | .read x => (Park.step s.park (.read x)).map fun p => { s with park := p }
  | .swap x => (Park.step s.park (.swap x)).map fun p => { s with park := p }
  | .queue x => (Park.step s.park (.queue x)).map fun p => { s with park := p }
  | .cancel u f =>
    if s.wakers u = .idle ∧ s.park.unparks (some u) = .idle then
      some { s.setWaker u (.cancels f) with asked := Function.update s.asked f true }
    else none
  | .capture u =>
    match s.wakers u with
    | .cancels f =>
      if s.park.unparks (some u) = .idle then
        match s.blockedOn with
        | some w => some (if f ∈ s.flags own then s.setWaker u (.holds f w) else s)
        | none => some s
      else none
    | _ => none
  | .cancelled u =>
    match s.wakers u with
    | .cancels _ => if s.park.unparks (some u) = .idle then some (s.setWaker u .idle) else none
    | _ => none
  | .signal u w =>
    if s.wakers u = .idle ∧ s.park.unparks (some u) = .idle ∧ s.listed w then
      some { s.setWaker u (.signals w) with
        listed := Function.update s.listed w false, signalled := Function.update s.signalled w true }
    else none
  | .wake u =>
    match s.wakers u with
    | .holds f w => (s.wake (some u) w).map fun t => t.setWaker u (.cancels f)
    | .signals w => (s.wake (some u) w).map fun t => t.setWaker u .idle
    | _ => none
  | .poll tokens =>
    if s.events = .polls ∧ s.park.unparks none = .idle then
      some { s with events := .polled tokens, fired := tokens ++ s.fired }
    else none
  | .collect =>
    match s.events with
    | .polled tokens =>
      let (woken,watched) := collect tokens s.watched
      let due := (s.timers.filter fun timer => timer.1 ≤ s.clock).map Prod.snd
      some { s with
        events := .wakes (woken ++ due)
        watched := watched
        timers := s.timers.filter fun timer => ¬timer.1 ≤ s.clock }
    | _ => none
  | .wakeDue w =>
    match s.events with
    | .wakes due =>
      if w ∈ due ∧ s.park.unparks none = .idle then
        (s.wake none w).map fun t => { t with events := .wakes (due.erase w) }
      else none
    | _ => none
  | .pollAgain => if s.events = .wakes [] then some { s with events := .polls } else none
  | .otherEnlists => some { s with lastToken := s.lastToken + 1 }
  | .tick => some { s with clock := s.clock + 1 }

end Ens.Tasks.Waits
