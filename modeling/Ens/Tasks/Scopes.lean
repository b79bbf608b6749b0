import Ens.Logic.Exec
import Mathlib.Logic.Relation
import Mathlib.Order.Basic

/-! # Task scopes

Scopes and the tasks they start. Whether a task is cancelled is found by climbing: from the body it runs
through the scopes that was opened in, to the task that runs them, and on to the scope of that task. A cancel
wakes tasks the other way, down the tasks that run in a scope and the scopes each of them opened.
-/
namespace Ens.Tasks.Scopes

/-- What is fixed of scopes and tasks: the task that opened a scope, the scope whose body that task ran then,
and the scope a task belongs to, all of them numbers. A thread that runs no task has a scope apart, which nothing else holds, while
it runs the body of a scope. -/
structure Family where
  owner : ℕ → Option ℕ
  openedIn : ℕ → Option ℕ
  scopeOf : ℕ → ℕ
  apart : ℕ → Bool
  opened_before : ∀ s o, openedIn s = some o → o < s
  opened_owner : ∀ s o, openedIn s = some o → owner o = owner s ∧ (owner s).isSome
  apart_owner : ∀ s, apart s = true → owner s = none

inductive Node
  | scope (s : ℕ)
  | task (t : ℕ)
  deriving DecidableEq

def Family.next (F : Family) : Node → Option Node
  | .scope s => match F.openedIn s with
    | some o => some (.scope o)
    | none => (F.owner s).map .task
  | .task t => some (.scope (F.scopeOf t))

def Family.aroundFrom (F : Family) : ℕ → ℕ → List ℕ
  | 0, _ => []
  | k + 1, s => match F.openedIn s with
    | some o => o :: aroundFrom F k o
    | none => []

-- derives the equations once, for all the proofs below
attribute [local grind =] Family.aroundFrom

def Family.around (F : Family) (s : ℕ) : List ℕ := F.aroundFrom s s

def Family.isInside (F : Family) (s outer : ℕ) : Bool := decide (outer ∈ F.around s)

/-! ### States -/

/-- Where a task is in a cancellable wait: its waiter is recorded, it climbs to see whether it is cancelled, it
waits, or it gives the wait up. What it saw not to be cancelled is kept beside. -/
inductive Stage
  | idle
  | blocked
  | looking (seen : List Node) (n : Node)
  | awaiting (seen : List Node)
  | leaving
  deriving DecidableEq

inductive Work
  | record (s : ℕ) (failure : ℕ)
  | expire (s : ℕ)
  | passed (s : ℕ)
  | cancel (n : Node)
  | wakeTasks (s : ℕ)
  | wake (t : ℕ)
  | wakeWithin (t : ℕ) (s : ℕ)
  | wakeWaiter (w : ℕ)
  | ifOpen (s : ℕ)
  | empty (s : ℕ)
  | disown (s : ℕ)
  deriving DecidableEq

structure Call where
  asked : Option Node := none
  todo : List Work

/-- The tickets removed and the failures recorded are kept beside. The bodies a task runs are listed innermost
first. -/
structure State where
  begun : ℕ → Bool := fun _ => false
  built : ℕ → Bool := fun _ => false
  asked : ℕ → Bool := fun _ => false
  timedOut : ℕ → Bool := fun _ => false
  ended : ℕ → Bool := fun _ => false
  running : ℕ → List (ℕ × ℕ) := fun _ => []
  started : ℕ → ℕ := fun _ => 0
  firstFailure : ℕ → Option ℕ := fun _ => none
  removed : ℕ → List ℕ := fun _ => []
  failures : ℕ → List ℕ := fun _ => []
  alive : ℕ → Bool := fun _ => false
  cancelled : ℕ → Bool := fun _ => false
  blockedOn : ℕ → Option ℕ := fun _ => none
  stage : ℕ → Stage := fun _ => .idle
  scopes : ℕ → List ℕ := fun _ => []
  bodies : ℕ → List ℕ := fun _ => []
  woken : ℕ → Bool := fun _ => false
  waiters : ℕ := 0
  calls : List Call := []

def init : State := {}

def put {V : Type} (f : ℕ → V) (i : ℕ) (v : V) : ℕ → V := fun j => if j = i then v else f j

def State.start (st : State) (t : ℕ) : Node :=
  match st.bodies t with
  | s :: _ => .scope s
  | [] => .task t

def State.marked (st : State) : Node → Bool
  | .scope s => st.asked s
  | .task t => st.cancelled t

inductive Action
  | construct (s : ℕ)
  | adopt (s : ℕ)
  | enterBody (t : ℕ) (s : ℕ)
  | leaveBody (t : ℕ)
  | adoptThread (t : ℕ)
  | leaveThread (t : ℕ)
  | admitTask (s : ℕ) (t : ℕ)
  | finish (t : ℕ) (ticket : ℕ)
  | cancel (n : Node)
  | failed (s : ℕ) (failure : ℕ)
  | timeOut (s : ℕ)
  | endScope (s : ℕ)
  | endIfOpen (s : ℕ)
  | work (i : ℕ)
  | block (t : ℕ)
  | look (t : ℕ)
  | stop (t : ℕ)
  | unblock (t : ℕ)

/-! ### Steps -/

section
variable (F : Family) (st : State)

def State.ownerAtWork (s : ℕ) : Bool :=
  match F.owner s with
  | some t => st.alive t && decide (st.stage t = .idle)
  | none => true

def State.begin (todo : List Work) : State := { st with calls := st.calls ++ [{ todo := todo }] }

def wakes : Node → List Work
  | .scope s => .wakeTasks s :: (F.owner s).toList.map fun t => .wakeWithin t s
  | .task t => [.wake t]

def State.perform : Work → Option (State × Option Node × List Work)
  | .record s failure => some ({ st with
      failures := put st.failures s (st.failures s ++ [failure])
      firstFailure := put st.firstFailure s (match st.firstFailure s with
        | none => some failure
        | some first => some first) },none,[])
  | .expire s => some (st,none,if st.ended s then [] else [.passed s,.cancel (.scope s)])
  | .passed s => some ({ st with timedOut := put st.timedOut s true },none,[])
  | .cancel (.scope s) => some ({ st with asked := put st.asked s true },some (.scope s),wakes F (.scope s))
  | .cancel (.task t) => some ({ st with cancelled := put st.cancelled t true },some (.task t),wakes F (.task t))
  | .wakeTasks s => some (st,none,(st.running s).map fun e => .wake e.2)
  | .wake t => some (st,none,(st.blockedOn t).toList.map .wakeWaiter ++ (st.scopes t).map .wakeTasks)
  | .wakeWithin t s => some (st,none,(if s ∈ st.bodies t then (st.blockedOn t).toList.map .wakeWaiter else []) ++
      ((st.scopes t).filter fun x => x ≠ s && F.isInside x s).map .wakeTasks)
  | .wakeWaiter w => some ({ st with woken := put st.woken w true },none,[])
  | .ifOpen s => some (st,none,if st.ended s then [] else [.empty s])
  | .empty s => if st.running s = [] then some ({ st with ended := put st.ended s true },none,[.disown s]) else none
  | .disown s => some ({ st with scopes := match F.owner s with
      | some t => put st.scopes t ((st.scopes t).erase s)
      | none => st.scopes },none,[])

def State.climb (seen : List Node) (n : Node) : Stage :=
  if st.marked n then .leaving
  else match F.next n with
    | some m => .looking (seen ++ [n]) m
    | none => .awaiting (seen ++ [n])

/-- A task in a wait does nothing else. A wait also ends with no cancel, and a scope's body is run by the
task that opened the scope, where it opened it. -/
def step : Action → Option State
  | .construct s =>
    if st.begun s = false ∧ F.apart s = false ∧ st.ownerAtWork F s ∧
        F.openedIn s = (F.owner s).bind fun t => (st.bodies t).head? then
      some { st with begun := put st.begun s true }
    else none
  | .adopt s =>
    if st.begun s ∧ st.built s = false ∧ st.ownerAtWork F s then
      some { st with
        built := put st.built s true
        scopes := match F.owner s with
          | some t => put st.scopes t (st.scopes t ++ [s])
          | none => st.scopes }
    else none
  | .enterBody t s =>
    if st.alive t ∧ st.stage t = .idle ∧ st.built s ∧ F.owner s = some t ∧ F.openedIn s = (st.bodies t).head? then
      some { st with bodies := put st.bodies t (s :: st.bodies t) }
    else none
  | .leaveBody t =>
    if st.alive t ∧ st.stage t = .idle then some { st with bodies := put st.bodies t (st.bodies t).tail } else none
  | .adoptThread t =>
    if st.alive t = false ∧ F.apart (F.scopeOf t) ∧ st.bodies t = [] then some { st with alive := put st.alive t true } else none
  | .leaveThread t =>
    if st.alive t ∧ st.stage t = .idle ∧ F.apart (F.scopeOf t) ∧ st.bodies t = [] then
      some { st with alive := put st.alive t false }
    else none
  | .admitTask s t =>
    if st.built s ∧ st.ended s = false ∧ F.scopeOf t = s ∧ st.alive t = false ∧ st.bodies t = [] then
      some { st with
        running := put st.running s (st.running s ++ [(st.started s,t)])
        started := put st.started s (st.started s + 1)
        alive := put st.alive t true }
    else none
  | .finish t ticket =>
    if st.alive t ∧ st.stage t = .idle ∧ st.bodies t = [] ∧ (ticket,t) ∈ st.running (F.scopeOf t) then
      some { st with
        running := put st.running (F.scopeOf t) ((st.running (F.scopeOf t)).filter fun e => e.1 ≠ ticket)
        removed := put st.removed (F.scopeOf t) (st.removed (F.scopeOf t) ++ [ticket])
        alive := put st.alive t false }
    else none
  | .cancel (.scope s) => if st.built s then some (st.begin [.cancel (.scope s)]) else none
  | .cancel (.task t) => some (st.begin [.cancel (.task t)])
  | .failed s failure => if st.built s then some (st.begin [.record s failure,.cancel (.scope s)]) else none
  | .timeOut s => if st.built s then some (st.begin [.expire s]) else none
  | .endScope s => if st.built s then some (st.begin [.empty s]) else none
  | .endIfOpen s => if st.built s then some (st.begin [.ifOpen s]) else none
  | .work i => match st.calls[i]? with
    | some ⟨asked,item :: rest⟩ => (st.perform F item).map fun (st',n,added) =>
        { st' with calls := st'.calls.set i ⟨n.or asked,added ++ rest⟩ }
    | _ => none
  | .block t =>
    if st.alive t ∧ st.stage t = .idle then
      some { st with
        blockedOn := put st.blockedOn t (some st.waiters)
        waiters := st.waiters + 1
        stage := put st.stage t .blocked }
    else none
  | .look t => match st.stage t with
    | .blocked => some { st with stage := put st.stage t (.looking [] (st.start t)) }
    | .looking seen n => some { st with stage := put st.stage t (st.climb F seen n) }
    | _ => none
  | .stop t => match st.stage t with
    | .awaiting _ => some { st with stage := put st.stage t .leaving }
    | _ => none
  | .unblock t =>
    if st.stage t = .leaving then
      some { st with blockedOn := put st.blockedOn t none, stage := put st.stage t .idle }
    else none

end

end Ens.Tasks.Scopes
