import Ens.Logic.Exec
import Ens.Tasks.Monitor

/-! # The state both ends of a channel share

A ring buffer of values not yet received, the lock that guards it, and three wait lists:
tasks waiting for a value, for room, and for the receipt of a value handed over. Each call
of `put` carries a number, and the outcome of every call is recorded in order.
-/
namespace Ens.Tasks.Channel

inductive Line
  | receivers
  | room
  | receipt
  deriving DecidableEq, Repr

/-- Where a parked task goes on: in `put` before the value is in or after it, or in
`awaitValue` with or without a time limit. -/
inductive Frame (T : Type)
  | room (send : ℕ) (value : T)
  | receipt (send : ℕ) (position : ℕ)
  | receivers (limited : Bool)

inductive Failure
  | cancelled
  | channelClosed
  deriving DecidableEq, Repr

/-- What a call did: put its value, withdrew it, returned or threw; or what a receive got,
where `got` carries the slot it read. -/
inductive Event (T : Type)
  | put (send : ℕ) (value : T)
  | withdrew (send : ℕ)
  | sent (send : ℕ)
  | refused (send : ℕ) (failure : Failure)
  | got (slot : Option T)
  | gotNothing
  | receiveCancelled

structure State (T : Type) where
  lock : Monitor Line (Frame T)
  capacity : ℤ
  slots : List (Option T)
  head : ℕ
  count : ℕ
  received : ℕ
  senders : ℤ
  everSent : Bool
  receiverReleased : Bool
  sends : ℕ
  log : List (Event T)

variable {T : Type}

def places (capacity : ℤ) : ℕ := if capacity < 1 then 1 else capacity.toNat

def new (capacity : ℤ) : State T where
  lock := {}
  capacity := capacity
  slots := List.replicate (places capacity) none
  head := 0
  count := 0
  received := 0
  senders := 0
  everSent := false
  receiverReleased := false
  sends := 0
  log := []

def record (s : State T) (e : Event T) : State T := { s with log := s.log ++ [e] }

def closed (s : State T) : Bool := s.everSent && decide (s.senders = 0)

def withdraw (s : State T) (k : ℕ) : State T :=
  record { s with
    slots := s.slots.set s.head none
    count := s.count - 1
    lock := s.lock.wakeOne .room } (.withdrew k)

/-- The loop that waits for the receipt of a value put at `position`, and the end of `put`
after it. -/
def awaitReceipt (s : State T) (t : Token) (k position : ℕ) : State T :=
  if s.receiverReleased = false ∧ s.received < position then
    match s.lock.wait t .receipt true (.receipt k position) with
    | some m => { s with lock := m }
    | none => record (withdraw s k) (.refused k .cancelled)
  else if s.received < position then record (withdraw s k) (.refused k .channelClosed)
  else record s (.sent k)

def write (s : State T) (k : ℕ) (value : T) : State T :=
  record { s with
    slots := s.slots.set ((s.head + s.count) % s.slots.length) (some value)
    count := s.count + 1
    lock := s.lock.wakeOne .receivers } (.put k value)

def put (s : State T) (t : Token) (k : ℕ) (value : T) : State T :=
  if s.receiverReleased = false ∧ s.count = s.slots.length then
    match s.lock.wait t .room true (.room k value) with
    | some m => { s with lock := m }
    | none => record s (.refused k .cancelled)
  else if s.receiverReleased then record s (.refused k .channelClosed)
  else
    let s' := write s k value
    if s.capacity = 0 then awaitReceipt s' t k (s.received + (s.count + 1))
    else record s' (.sent k)

def removeHead (s : State T) : State T :=
  if s.count = 0 then record s .gotNothing
  else
    record { s with
      slots := s.slots.set s.head none
      head := (s.head + 1) % s.slots.length
      count := s.count - 1
      received := s.received + 1
      lock := (s.lock.wakeAll .receipt).wakeOne .room } (.got (s.slots.getD s.head none))

def take (s : State T) (t : Token) (limited cancellable expired : Bool) : State T :=
  if s.count = 0 ∧ closed s = false then
    if limited && expired then removeHead s
    else
      match s.lock.wait t .receivers cancellable (.receivers limited) with
      | some m => { s with lock := m }
      | none => record s .receiveCancelled
  else removeHead s

inductive Action (T : Type)
  | send (t : Token) (value : T)
  | receive (t : Token) (limited expired : Bool)
  | receiveWaiting (t : Token)
  | resume (t : Token) (expired : Bool)
  | addSender
  | releaseSender
  | releaseReceiver
  | cancel (t : Token)
  | uncancel (t : Token)
  | interrupt (w : ℕ)

def resumed (s : State T) (p : Parked Line (Frame T)) (expired : Bool) : State T :=
  match p.frame with
  | .room k value =>
    if s.lock.doomed p then record s (.refused k .cancelled) else put s p.task k value
  | .receipt k position =>
    if s.lock.doomed p ∧ s.received < position then record (withdraw s k) (.refused k .cancelled)
    else awaitReceipt s p.task k position
  | .receivers limited =>
    if s.lock.doomed p then record s .receiveCancelled
    else take s p.task limited p.cancellable expired

/-- One lock section of a call, one use of an end of the channel, or one wake or cancel from
outside. A Sender is released once. -/
def step (s : State T) : Action T → Option (State T)
  | .send t value =>
    if (s.lock.find t).isSome then none
    else some (put { s with sends := s.sends + 1 } t s.sends value)
  | .receive t limited expired =>
    if (s.lock.find t).isSome then none else some (take s t limited true expired)
  | .receiveWaiting t =>
    if (s.lock.find t).isSome then none else some (take s t false false false)
  | .resume t expired =>
    match s.lock.find t with
    | none => none
    | some p => some (resumed { s with lock := s.lock.unpark p } p expired)
  | .addSender => some { s with senders := s.senders + 1, everSent := true }
  | .releaseSender =>
    if 0 < s.senders then
      some (if s.senders - 1 = 0 then
        { s with senders := s.senders - 1, lock := s.lock.wakeAll .receivers }
      else { s with senders := s.senders - 1 })
    else none
  | .releaseReceiver =>
    some { s with receiverReleased := true, lock := (s.lock.wakeAll .room).wakeAll .receipt }
  | .cancel t => some { s with lock := s.lock.cancel t true }
  | .uncancel t =>
    if (s.lock.find t).isSome then none else some { s with lock := s.lock.cancel t false }
  | .interrupt w => some { s with lock := s.lock.interrupt w }

theorem places_pos (capacity : ℤ) : 0 < places capacity := by
  unfold places; split <;> omega

@[simp] theorem places_zero : places 0 = 1 := rfl

@[simp] theorem record_lock (s : State T) (e : Event T) : (record s e).lock = s.lock := rfl
@[simp] theorem record_slots (s : State T) (e : Event T) : (record s e).slots = s.slots := rfl
@[simp] theorem record_head (s : State T) (e : Event T) : (record s e).head = s.head := rfl
@[simp] theorem record_count (s : State T) (e : Event T) : (record s e).count = s.count := rfl
@[simp] theorem record_received (s : State T) (e : Event T) : (record s e).received = s.received := rfl
@[simp] theorem record_capacity (s : State T) (e : Event T) : (record s e).capacity = s.capacity := rfl
@[simp] theorem record_sends (s : State T) (e : Event T) : (record s e).sends = s.sends := rfl
@[simp] theorem record_released (s : State T) (e : Event T) :
    (record s e).receiverReleased = s.receiverReleased := rfl
@[simp] theorem record_log (s : State T) (e : Event T) : (record s e).log = s.log ++ [e] := rfl

/-- The line a parked task stands in. -/
def Frame.line : Frame T → Line
  | .room _ _ => .room
  | .receipt _ _ => .receipt
  | .receivers _ => .receivers

end Ens.Tasks.Channel
