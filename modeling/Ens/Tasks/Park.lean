import Ens.Logic.Exec
import Mathlib.Logic.Function.Basic
import Mathlib.Tactic.Common

/-! # Parking and unparking a task

A worker completes the park of a task that has left its context, while other threads unpark it.
Exactly one of them holds the task at a time: a run queue, the worker that runs it, the thread
that is about to queue it, or its park. A wake is kept in the park state until a park returns for
it, so an unpark that has returned leaves the task on its way to run.
-/
set_option linter.all false
namespace Ens.Tasks.Park
open Exec
variable {W U : Type} [DecidableEq W] [DecidableEq U]

inductive ParkState
  | running
  | parked
  | wakePending
  deriving DecidableEq, Repr

/-- What a worker does with the task: it has nothing to do with it, it runs it, the task has left
its context in a park, the swap of `completePark` failed, or the task is to be queued again. -/
inductive Work
  | free
  | runs
  | left
  | swapFailed
  | requeues
  deriving DecidableEq, Repr

/-- Where a thread is in `unpark`: outside, about to read the state, about to swap it after it
read one of the two states it swaps, or about to queue the task. -/
inductive Unpark
  | idle
  | reads
  | sawParked
  | sawRunning
  | queues
  deriving DecidableEq, Repr

/-- One task. `queued` is how often it is in a run queue, and `waiting` are the threads whose last
`unpark` began after the task was last run. -/
structure State (W U : Type) where
  parkState : ParkState := .running
  queued : ℕ := 0
  works : W → Work := fun _ => .free
  unparks : U → Unpark := fun _ => .idle
  ended : Bool := false
  waiting : U → Bool := fun _ => false

def init : State W U := { queued := 1 }

inductive Action (W U : Type)
  | take (w : W)
  | park (w : W)
  | finish (w : W)
  | completeSwap (w : W)
  | completeWrite (w : W)
  | completeQueue (w : W)
  | unpark (u : U)
  | read (u : U)
  | swap (u : U)
  | queue (u : U)

def State.work (s : State W U) (w : W) (x : Work) : State W U := { s with works := Function.update s.works w x }

def State.unpark (s : State W U) (u : U) (x : Unpark) : State W U :=
  { s with unparks := Function.update s.unparks u x }

omit [DecidableEq U] in
@[simp] theorem State.work_unparks (s : State W U) (w : W) (x : Work) : (s.work w x).unparks = s.unparks := rfl

omit [DecidableEq U] in
@[simp] theorem State.work_parkState (s : State W U) (w : W) (x : Work) : (s.work w x).parkState = s.parkState := rfl

omit [DecidableEq U] in
@[simp] theorem State.work_ended (s : State W U) (w : W) (x : Work) : (s.work w x).ended = s.ended := rfl

omit [DecidableEq W] in
@[simp] theorem State.unpark_works (s : State W U) (u : U) (x : Unpark) : (s.unpark u x).works = s.works := rfl

omit [DecidableEq W] in
@[simp] theorem State.unpark_parkState (s : State W U) (u : U) (x : Unpark) :
    (s.unpark u x).parkState = s.parkState := rfl

omit [DecidableEq W] in
@[simp] theorem State.unpark_ended (s : State W U) (u : U) (x : Unpark) : (s.unpark u x).ended = s.ended := rfl

def step (s : State W U) : Action W U → Option (State W U)
  | .take w =>
    if 0 < s.queued ∧ s.works w = .free then
      some { s.work w .runs with queued := s.queued - 1, waiting := fun _ => false }
    else none
  | .park w => if s.works w = .runs then some (s.work w .left) else none
  | .finish w => if s.works w = .runs then some { s.work w .free with ended := true } else none
  | .completeSwap w =>
    if s.works w = .left then
      if s.parkState = .running then some { s.work w .free with parkState := .parked }
      else some (s.work w .swapFailed)
    else none
  | .completeWrite w =>
    if s.works w = .swapFailed then some { s.work w .requeues with parkState := .running } else none
  | .completeQueue w =>
    if s.works w = .requeues then some { s.work w .free with queued := s.queued + 1 } else none
  | .unpark u =>
    if s.unparks u = .idle then some { s.unpark u .reads with waiting := Function.update s.waiting u true } else none
  | .read u =>
    if s.unparks u = .reads then
      match s.parkState with
      | .parked => some (s.unpark u .sawParked)
      | .running => some (s.unpark u .sawRunning)
      | .wakePending => some (s.unpark u .idle)
    else none
  | .swap u =>
    match s.unparks u with
    | .sawParked =>
      if s.parkState = .parked then some { s.unpark u .queues with parkState := .running }
      else some (s.unpark u .reads)
    | .sawRunning =>
      if s.parkState = .running then some { s.unpark u .idle with parkState := .wakePending }
      else some (s.unpark u .reads)
    | _ => none
  | .queue u =>
    if s.unparks u = .queues then some { s.unpark u .idle with queued := s.queued + 1 } else none

inductive Steps (s : State W U) : Action W U → State W U → Prop
  | take {w : W} : 0 < s.queued → s.works w = .free →
      Steps s (.take w) { s.work w .runs with queued := s.queued - 1, waiting := fun _ => false }
  | park {w : W} : s.works w = .runs → Steps s (.park w) (s.work w .left)
  | finish {w : W} : s.works w = .runs → Steps s (.finish w) { s.work w .free with ended := true }
  | parks {w : W} : s.works w = .left → s.parkState = .running →
      Steps s (.completeSwap w) { s.work w .free with parkState := .parked }
  | swapFails {w : W} : s.works w = .left → s.parkState ≠ .running →
      Steps s (.completeSwap w) (s.work w .swapFailed)
  | completeWrite {w : W} : s.works w = .swapFailed →
      Steps s (.completeWrite w) { s.work w .requeues with parkState := .running }
  | completeQueue {w : W} : s.works w = .requeues →
      Steps s (.completeQueue w) { s.work w .free with queued := s.queued + 1 }
  | unpark {u : U} : s.unparks u = .idle →
      Steps s (.unpark u) { s.unpark u .reads with waiting := Function.update s.waiting u true }
  | readParked {u : U} : s.unparks u = .reads → s.parkState = .parked → Steps s (.read u) (s.unpark u .sawParked)
  | readRunning {u : U} : s.unparks u = .reads → s.parkState = .running → Steps s (.read u) (s.unpark u .sawRunning)
  | readPending {u : U} : s.unparks u = .reads → s.parkState = .wakePending → Steps s (.read u) (s.unpark u .idle)
  | swapParked {u : U} : s.unparks u = .sawParked → s.parkState = .parked →
      Steps s (.swap u) { s.unpark u .queues with parkState := .running }
  | swapRunning {u : U} : s.unparks u = .sawRunning → s.parkState = .running →
      Steps s (.swap u) { s.unpark u .idle with parkState := .wakePending }
  | again {u : U} : s.unparks u = .sawParked ∨ s.unparks u = .sawRunning → Steps s (.swap u) (s.unpark u .reads)
  | queue {u : U} : s.unparks u = .queues → Steps s (.queue u) { s.unpark u .idle with queued := s.queued + 1 }

variable {s t : State W U} {a : Action W U} {w : W} {u : U}

theorem steps_of_step (h : step s a = some t) : Steps s a t := by
  cases a with
  | take w =>
    simp only [step] at h
    split at h
    · rename_i hc
      cases h
      exact .take hc.1 hc.2
    · cases h
  | completeSwap w =>
    simp only [step] at h
    split at h
    · rename_i hc
      split at h
      · rename_i hp
        cases h
        exact .parks hc hp
      · rename_i hp
        cases h
        exact .swapFails hc hp
    · cases h
  | read u =>
    simp only [step] at h
    split at h
    · rename_i hc
      cases hp : s.parkState with
      | parked => rw [hp] at h; cases h; exact .readParked hc hp
      | running => rw [hp] at h; cases h; exact .readRunning hc hp
      | wakePending => rw [hp] at h; cases h; exact .readPending hc hp
    · cases h
  | swap u =>
    simp only [step] at h
    cases hu : s.unparks u with
    | sawParked =>
      rw [hu] at h
      dsimp only at h
      split at h
      · rename_i hp
        cases h
        exact .swapParked hu hp
      · cases h
        exact .again (.inl hu)
    | sawRunning =>
      rw [hu] at h
      dsimp only at h
      split at h
      · rename_i hp
        cases h
        exact .swapRunning hu hp
      · cases h
        exact .again (.inr hu)
    | idle | reads | queues => rw [hu] at h; cases h
  | park w => simp only [step] at h; split at h <;> cases h; exact .park ‹_›
  | finish w => simp only [step] at h; split at h <;> cases h; exact .finish ‹_›
  | completeWrite w => simp only [step] at h; split at h <;> cases h; exact .completeWrite ‹_›
  | completeQueue w => simp only [step] at h; split at h <;> cases h; exact .completeQueue ‹_›
  | unpark u => simp only [step] at h; split at h <;> cases h; exact .unpark ‹_›
  | queue u => simp only [step] at h; split at h <;> cases h; exact .queue ‹_›

/-! ### Who holds the task -/

inductive Holder (W U : Type)
  | queue
  | worker (w : W)
  | unparker (u : U)
  | parked
  | ended
  deriving DecidableEq

structure HeldBy (s : State W U) (h : Holder W U) : Prop where
  queued : s.queued = if h = .queue then 1 else 0
  works : ∀ w, s.works w ≠ .free ↔ h = .worker w
  unparks : ∀ u, s.unparks u = .queues ↔ h = .unparker u
  parked : s.parkState = .parked ↔ h = .parked
  ended : s.ended = true ↔ h = .ended

variable {h : Holder W U}

theorem heldBy_init : HeldBy (init : State W U) .queue := by
  constructor <;> simp [init]

theorem HeldBy.worker (hh : HeldBy s h) (hw : s.works w ≠ .free) : h = .worker w := (hh.works w).mp hw

theorem HeldBy.work (hh : HeldBy s (.worker w)) {x : Work} (hx : x ≠ .free) : HeldBy (s.work w x) (.worker w) := by
  refine ⟨hh.queued,fun v => ?_,hh.unparks,hh.parked,hh.ended⟩
  by_cases hv : v = w
  · subst hv; simpa [State.work] using hx
  · simpa [State.work,hv] using hh.works v

theorem HeldBy.unpark (hh : HeldBy s h) {x : Unpark} (hx : x ≠ .queues) (hu : s.unparks u ≠ .queues) :
    HeldBy (s.unpark u x) h := by
  refine ⟨hh.queued,hh.works,fun v => ?_,hh.parked,hh.ended⟩
  by_cases hv : v = u
  · subst hv
    have := hh.unparks v
    simp only [State.unpark,Function.update_self]
    tauto
  · simpa [State.unpark,hv] using hh.unparks v

/-- Once the worker that holds the task gives it up, none has it. -/
theorem HeldBy.works_free (hh : HeldBy s (.worker w)) (v : W) : (s.work w .free).works v = .free := by
  by_cases hv : v = w
  · subst hv; simp [State.work]
  · simp only [State.work,Function.update_of_ne hv]
    by_contra hne
    cases (hh.works v).mp hne
    exact hv rfl

theorem HeldBy.unparks_ne (hh : HeldBy s h) (hne : ∀ u, h ≠ .unparker u) (v : U) : s.unparks v ≠ .queues :=
  fun hv => hne v ((hh.unparks v).mp hv)

theorem steps_heldBy (hh : HeldBy s h) (hs : Steps s a t) : ∃ h', HeldBy t h' := by
  cases hs with
  | @take w hq hw =>
    obtain rfl : h = .queue := by
      by_contra hne
      have := hh.queued
      rw [if_neg hne] at this
      omega
    refine ⟨.worker w,by simp [hh.queued],fun v => ?_,fun v => ?_,?_,?_⟩
    · have := hh.works v
      by_cases hv : v = w
      · subst hv; simp [State.work]
      · simp_all [State.work,eq_comm]
    · simpa using hh.unparks v
    · simpa using hh.parked
    · simpa using hh.ended
  | @park w hw =>
    obtain rfl := hh.worker (w := w) (by rw [hw]; decide)
    exact ⟨_,hh.work (by decide)⟩
  | @finish w hw =>
    obtain rfl := hh.worker (w := w) (by rw [hw]; decide)
    refine ⟨.ended,hh.queued,fun v => ?_,fun v => ?_,?_,by simp⟩
    · simp [hh.works_free v]
    · simpa using hh.unparks v
    · simpa using hh.parked
  | @parks w hw _ =>
    obtain rfl := hh.worker (w := w) (by rw [hw]; decide)
    refine ⟨.parked,hh.queued,fun v => ?_,fun v => ?_,by simp,?_⟩
    · simp [hh.works_free v]
    · simpa using hh.unparks v
    · simpa using hh.ended
  | @swapFails w hw _ =>
    obtain rfl := hh.worker (w := w) (by rw [hw]; decide)
    exact ⟨_,hh.work (by decide)⟩
  | @completeWrite w hw =>
    obtain rfl := hh.worker (w := w) (by rw [hw]; decide)
    obtain ⟨h1,h2,h3,-,h5⟩ := hh.work (x := .requeues) (by decide)
    exact ⟨.worker w,h1,h2,h3,by simp,h5⟩
  | @completeQueue w hw =>
    obtain rfl := hh.worker (w := w) (by rw [hw]; decide)
    refine ⟨.queue,by simp [hh.queued],fun v => ?_,fun v => ?_,?_,?_⟩
    · simp [hh.works_free v]
    · simpa using hh.unparks v
    · simpa using hh.parked
    · simpa using hh.ended
  | @unpark u hu =>
    obtain ⟨h1,h2,h3,h4,h5⟩ := hh.unpark (x := .reads) (u := u) (by decide) (by rw [hu]; decide)
    exact ⟨h,h1,h2,h3,h4,h5⟩
  | @readParked u hu _ | @readRunning u hu _ | @readPending u hu _ =>
    exact ⟨h,hh.unpark (by decide) (by rw [hu]; decide)⟩
  | @again u hu =>
    exact ⟨h,hh.unpark (by decide) (by rcases hu with hu | hu <;> rw [hu] <;> decide)⟩
  | @swapParked u hu hp =>
    obtain rfl := hh.parked.mp hp
    refine ⟨.unparker u,hh.queued,fun v => ?_,fun v => ?_,by simp,?_⟩
    · simpa using hh.works v
    · by_cases hv : v = u
      · subst hv; simp [State.unpark]
      · have hne := hh.unparks_ne (by simp) v
        simp only [State.unpark,Function.update_of_ne hv,Holder.unparker.injEq]
        exact iff_of_false hne (Ne.symm hv)
    · simpa using hh.ended
  | @swapRunning u hu hp =>
    obtain ⟨h1,h2,h3,-,h5⟩ := hh.unpark (x := .idle) (u := u) (by decide) (by rw [hu]; decide)
    refine ⟨h,h1,h2,h3,?_,h5⟩
    have := hh.parked
    simp_all
  | @queue u hu =>
    obtain rfl := (hh.unparks u).mp hu
    refine ⟨.queue,by simp [hh.queued],fun v => ?_,fun v => ?_,?_,?_⟩
    · simpa using hh.works v
    · by_cases hv : v = u
      · subst hv; simp [State.unpark]
      · have := hh.unparks v
        simp_all [State.unpark,eq_comm]
    · simpa using hh.parked
    · simpa using hh.ended

/-! ### A wake is kept -/

/-- A task on its way to a run queue, and how many steps of what holds it are left: a park under
way will find the wake, and so will the next park of a task that runs. -/
inductive ToGo (s : State W U) : ℕ → Prop
  | queued : s.queued = 1 → ToGo s 0
  | unparker {u : U} : s.unparks u = .queues → ToGo s 1
  | requeues {w : W} : s.works w = .requeues → ToGo s 1
  | swapFailed {w : W} : s.works w = .swapFailed → ToGo s 2
  | left {w : W} : s.works w = .left → s.parkState = .wakePending → ToGo s 3
  | runs {w : W} : s.works w = .runs → s.parkState = .wakePending → ToGo s 4

def Action.ofHolder : Action W U → Bool
  | .park _ | .finish _ | .completeSwap _ | .completeWrite _ | .completeQueue _ | .queue _ => true
  | .take _ | .unpark _ | .read _ | .swap _ => false

omit [DecidableEq W] [DecidableEq U] in
theorem ToGo.mono {n : ℕ} (hg : ToGo s n) (hq : t.queued = s.queued) (hw : t.works = s.works)
    (hp : s.parkState = .wakePending → t.parkState = .wakePending)
    (hu : ∀ v, s.unparks v = .queues → t.unparks v = .queues) : ToGo t n := by
  cases hg with
  | queued h => exact .queued (hq.trans h)
  | unparker h => exact .unparker (hu _ h)
  | requeues h => exact .requeues (by rw [hw]; exact h)
  | swapFailed h => exact .swapFailed (by rw [hw]; exact h)
  | left h hpend => exact .left (by rw [hw]; exact h) (hp hpend)
  | runs h hpend => exact .runs (by rw [hw]; exact h) (hp hpend)

omit [DecidableEq W] in
theorem State.unpark_queues {x : Unpark} (hu : s.unparks u ≠ .queues) (v : U) (hv : s.unparks v = .queues) :
    (s.unpark u x).unparks v = .queues := by
  have hne : v ≠ u := by rintro rfl; exact hu hv
  simpa [State.unpark,hne] using hv

theorem toGo_worker {n : ℕ} (hh : HeldBy s (.worker w)) (hg : ToGo s n) :
    (s.works w = .requeues ∧ n = 1) ∨ (s.works w = .swapFailed ∧ n = 2) ∨
      (s.parkState = .wakePending ∧ ((s.works w = .left ∧ n = 3) ∨ (s.works w = .runs ∧ n = 4))) := by
  have hw {v : W} (hv : s.works v ≠ .free) : v = w := by
    cases (hh.works v).mp hv
    rfl
  cases hg with
  | queued h => simp [hh.queued] at h
  | unparker h => cases (hh.unparks _).mp h
  | @requeues v h =>
    obtain rfl := hw (v := v) (by rw [h]; decide)
    exact .inl ⟨h,rfl⟩
  | @swapFailed v h =>
    obtain rfl := hw (v := v) (by rw [h]; decide)
    exact .inr (.inl ⟨h,rfl⟩)
  | @left v h hp =>
    obtain rfl := hw (v := v) (by rw [h]; decide)
    exact .inr (.inr ⟨hp,.inl ⟨h,rfl⟩⟩)
  | @runs v h hp =>
    obtain rfl := hw (v := v) (by rw [h]; decide)
    exact .inr (.inr ⟨hp,.inr ⟨h,rfl⟩⟩)

theorem not_toGo_parked {n : ℕ} (hh : HeldBy s .parked) : ¬ToGo s n := by
  have hw (v : W) : s.works v = .free := by
    by_contra hv
    cases (hh.works v).mp hv
  intro hg
  cases hg with
  | queued h => simp [hh.queued] at h
  | unparker h => cases (hh.unparks _).mp h
  | requeues h | swapFailed h | left h _ | runs h _ => rw [hw] at h; cases h

theorem toGo_unparker {n : ℕ} (hh : HeldBy s (.unparker u)) (hg : ToGo s n) : n = 1 := by
  cases hg with
  | queued h => simp [hh.queued] at h
  | unparker _ | requeues _ => rfl
  | swapFailed h | left h _ | runs h _ => cases (hh.works _).mp (by rw [h]; decide)

/-- A task on its way stays so until it is taken, and every step of what holds it brings it on. -/
theorem toGo_step {n : ℕ} (hh : HeldBy s h) (hg : ToGo s n) (hs : Steps s a t) :
    (∃ w, a = .take w) ∨ t.ended = true ∨ ∃ m ≤ n, ToGo t m ∧ (a.ofHolder = true → m < n) := by
  have hother {t : State W U} {a : Action W U} (ha : a.ofHolder = false) (hg : ToGo t n) :
      (∃ w, a = .take w) ∨ t.ended = true ∨ ∃ m ≤ n, ToGo t m ∧ (a.ofHolder = true → m < n) :=
    .inr (.inr ⟨n,Nat.le_refl n,hg,fun h => by rw [ha] at h; cases h⟩)
  cases hs with
  | @take w => exact .inl ⟨w,rfl⟩
  | finish => exact .inr (.inl rfl)
  | @park w hw =>
    obtain rfl := hh.worker (w := w) (by rw [hw]; decide)
    rcases toGo_worker hh hg with ⟨h,-⟩ | ⟨h,-⟩ | ⟨hp,⟨h,-⟩ | ⟨-,rfl⟩⟩
    · rw [hw] at h; cases h
    · rw [hw] at h; cases h
    · rw [hw] at h; cases h
    · exact .inr (.inr ⟨3,by omega,.left (w := w) (by simp [State.work]) hp,fun _ => by omega⟩)
  | @parks w hw hrun =>
    obtain rfl := hh.worker (w := w) (by rw [hw]; decide)
    rcases toGo_worker hh hg with ⟨h,-⟩ | ⟨h,-⟩ | ⟨hp,-⟩
    · rw [hw] at h; cases h
    · rw [hw] at h; cases h
    · rw [hrun] at hp; cases hp
  | @swapFails w hw _ =>
    obtain rfl := hh.worker (w := w) (by rw [hw]; decide)
    rcases toGo_worker hh hg with ⟨h,-⟩ | ⟨h,-⟩ | ⟨hp,⟨-,rfl⟩ | ⟨h,-⟩⟩
    · rw [hw] at h; cases h
    · rw [hw] at h; cases h
    · exact .inr (.inr ⟨2,by omega,.swapFailed (w := w) (by simp [State.work]),fun _ => by omega⟩)
    · rw [hw] at h; cases h
  | @completeWrite w hw =>
    obtain rfl := hh.worker (w := w) (by rw [hw]; decide)
    rcases toGo_worker hh hg with ⟨h,-⟩ | ⟨-,rfl⟩ | ⟨-,⟨h,-⟩ | ⟨h,-⟩⟩
    · rw [hw] at h; cases h
    · exact .inr (.inr ⟨1,by omega,.requeues (w := w) (by simp [State.work]),fun _ => by omega⟩)
    · rw [hw] at h; cases h
    · rw [hw] at h; cases h
  | @completeQueue w hw =>
    obtain rfl := hh.worker (w := w) (by rw [hw]; decide)
    rcases toGo_worker hh hg with ⟨-,rfl⟩ | ⟨h,-⟩ | ⟨-,⟨h,-⟩ | ⟨h,-⟩⟩
    · exact .inr (.inr ⟨0,by omega,.queued (by simp [hh.queued]),fun _ => by omega⟩)
    · rw [hw] at h; cases h
    · rw [hw] at h; cases h
    · rw [hw] at h; cases h
  | @unpark u hu =>
    exact hother rfl (hg.mono rfl rfl id (State.unpark_queues (by rw [hu]; decide)))
  | @readParked u hu _ | @readRunning u hu _ | @readPending u hu _ =>
    exact hother rfl (hg.mono rfl rfl id (State.unpark_queues (by rw [hu]; decide)))
  | @again u hu =>
    exact hother rfl (hg.mono rfl rfl id (State.unpark_queues (by rcases hu with hu | hu <;> rw [hu] <;> decide)))
  | @swapParked u hu hp =>
    obtain rfl := hh.parked.mp hp
    exact absurd hg (not_toGo_parked hh)
  | @swapRunning u hu hp =>
    exact hother rfl (hg.mono rfl rfl (fun _ => rfl) (State.unpark_queues (by rw [hu]; decide)))
  | @queue u hu =>
    obtain rfl := (hh.unparks u).mp hu
    obtain rfl := toGo_unparker hh hg
    exact .inr (.inr ⟨0,by omega,.queued (by simp [hh.queued]),fun _ => by omega⟩)

theorem toGo_next {n : ℕ} (hg : ToGo s (n + 1)) : ∃ a, a.ofHolder = true ∧ (step s a).isSome := by
  cases hg with
  | @unparker u h => exact ⟨.queue u,rfl,by simp [step,h]⟩
  | @requeues w h => exact ⟨.completeQueue w,rfl,by simp [step,h]⟩
  | @swapFailed w h => exact ⟨.completeWrite w,rfl,by simp [step,h]⟩
  | @left w h hp => exact ⟨.completeSwap w,rfl,by simp [step,h,hp]⟩
  | @runs w h _ => exact ⟨.park w,rfl,by simp [step,h]⟩

/-- A wake that is pending, or a task that is not parked, is on its way. -/
theorem toGo_of_pending (hh : HeldBy s h) (hp : s.parkState = .wakePending) : s.ended = true ∨ ∃ n ≤ 4, ToGo s n := by
  cases h with
  | queue => exact .inr ⟨0,by omega,.queued (by simpa using hh.queued)⟩
  | worker w =>
    right
    have hw := (hh.works w).mpr rfl
    cases hx : s.works w with
    | free => exact absurd hx hw
    | runs => exact ⟨4,by omega,.runs hx hp⟩
    | left => exact ⟨3,by omega,.left hx hp⟩
    | swapFailed => exact ⟨2,by omega,.swapFailed hx⟩
    | requeues => exact ⟨1,by omega,.requeues hx⟩
  | unparker u => exact .inr ⟨1,by omega,.unparker ((hh.unparks u).mpr rfl)⟩
  | parked =>
    have := hh.parked.mpr rfl
    rw [hp] at this
    cases this
  | ended => exact .inl (hh.ended.mpr rfl)

/-- Every thread that has returned from an `unpark` since the task was last run left it on its way. -/
def Kept (s : State W U) : Prop :=
  ∀ u, s.waiting u = true → s.unparks u = .idle → s.ended = true ∨ ∃ n ≤ 4, ToGo s n

structure Inv (s : State W U) : Prop where
  held : ∃ h, HeldBy s h
  kept : Kept s

theorem inv_init : Inv (init : State W U) := ⟨⟨_,heldBy_init⟩,fun u hu => by cases hu⟩

theorem steps_ended (hs : Steps s a t) (he : s.ended = true) : t.ended = true := by
  cases hs <;> first | exact he | rfl

theorem inv_steps (hi : Inv s) (hs : Steps s a t) : Inv t := by
  obtain ⟨⟨h,hh⟩,hk⟩ := hi
  obtain ⟨h',hh'⟩ := steps_heldBy hh hs
  refine ⟨⟨h',hh'⟩,fun v hv hidle => ?_⟩
  -- A thread that was idle before keeps its wake, and one that returns here leaves one.
  have hold (ht : ¬∃ w, a = .take w) (hw : s.waiting v = true) (hu : s.unparks v = .idle) :
      t.ended = true ∨ ∃ n ≤ 4, ToGo t n := by
    rcases hk v hw hu with he | ⟨n,hn,hg⟩
    · exact .inl (steps_ended hs he)
    · rcases toGo_step hh hg hs with h1 | h1 | ⟨m,hm,hg',-⟩
      · exact absurd h1 ht
      · exact .inl h1
      · exact .inr ⟨m,Nat.le_trans hm hn,hg'⟩
  cases hs with
  | take => cases hv
  | @unpark u hu =>
    by_cases hvu : v = u
    · subst hvu
      simp [State.unpark] at hidle
    · refine hold (by simp) ?_ ?_
      · simpa [hvu] using hv
      · simpa [State.unpark,hvu] using hidle
  | park hw | finish hw | parks hw hp | swapFails hw hp | completeWrite hw | completeQueue hw =>
    exact hold (by simp) hv hidle
  | @readParked u hu hp | @readRunning u hu hp | @swapParked u hu hp | @again u hu =>
    by_cases hvu : v = u
    · subst hvu
      simp [State.unpark] at hidle
    · exact hold (by simp) hv (by simpa [State.unpark,hvu] using hidle)
  | @readPending u hu hp => exact toGo_of_pending hh' hp
  | @swapRunning u hu hp => exact toGo_of_pending hh' rfl
  | @queue u hu =>
    obtain rfl := (hh.unparks u).mp hu
    exact .inr ⟨0,by omega,.queued (by simp [hh.queued])⟩

/-- What holds of a task in every state: it is in a run queue once at most, and then no worker
runs it, nor do two workers at once; and a task that was unparked is on its way to run, on which
every step of what holds it brings it and no other step holds it up. -/
structure Safe (s : State W U) : Prop where
  once : s.queued ≤ 1
  alone : 0 < s.queued → ∀ w, s.works w = .free
  single : ∀ v w, s.works v ≠ .free → s.works w ≠ .free → v = w
  kept : Kept s
  comes : ∀ n a t, ToGo s n → step s a = some t →
    (∃ w, a = .take w) ∨ t.ended = true ∨ ∃ m ≤ n, ToGo t m ∧ (a.ofHolder = true → m < n)
  next : ∀ n, ToGo s (n + 1) → ∃ a, a.ofHolder = true ∧ (step s a).isSome

theorem Inv.safe (hi : Inv s) : Safe s := by
  obtain ⟨⟨h,hh⟩,hk⟩ := hi
  refine ⟨?_,fun hq w => ?_,fun v w hv hw => ?_,hk,fun n a t hg hs => toGo_step hh hg (steps_of_step hs),
    fun n hg => toGo_next hg⟩
  · rw [hh.queued]
    split <;> omega
  · by_contra hw
    obtain rfl := (hh.works w).mp hw
    simp [hh.queued] at hq
  · have h1 := (hh.works v).mp hv
    have h2 := (hh.works w).mp hw
    rw [h1] at h2
    cases h2
    rfl

/-- In every interleaving of the parks of a task, its workers and any number of unparks. -/
theorem park_unpark_safe (actions : List (Action W U)) (hrun : exec step init actions = some s) : Safe s :=
  (exec_invariant inv_init (fun _ _ _ hi hs => inv_steps hi (steps_of_step hs)) hrun).safe

/-- An unpark that comes while the worker is about to complete a park is kept: the park finds it. -/
theorem park_unpark_safe_pending : ∃ s : State Unit Unit,
    exec step init [.take (),.park (),.unpark (),.read (),.swap (),.completeSwap ()] = some s ∧ ToGo s 2 ∧ Safe s :=
  ⟨_,rfl,.swapFailed (w := ()) rfl,
    park_unpark_safe [.take (),.park (),.unpark (),.read (),.swap (),.completeSwap ()] rfl⟩

end Ens.Tasks.Park
