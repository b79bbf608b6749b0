import Ens.Logic.Exec
import Ens.Tasks.TimerHeap

/-! # The events thread

Any number of calls schedule timers while the thread computes how long it may wait, waits for its poller, takes the timers that are due and
fires them. A section under the lock is one step, and so is a wake of the poller or the start of a wait.
-/
set_option linter.all false
namespace Ens.Tasks.Events
open Exec Heap

/-- Where the events thread is. A wait has the limit computed for it, the time that was computed at and the time it began. -/
inductive Phase
  | computing
  | entering (readAt left : ℤ)
  | waiting (readAt left begun : ℤ)
  | returned
  | firing (due : List Timer)
  deriving DecidableEq

/-- The clock, the heap, the number of timers made, the calls that still have to wake the poller for the timer they scheduled, a wake of the
poller that nobody waited for, and the timers fired. -/
structure State where
  now : ℤ
  heap : List Timer
  made : ℕ
  wakers : List Timer
  wakeKept : Bool
  phase : Phase
  fired : List Timer
  deriving DecidableEq

def start : State := ⟨0,[],0,[],false,.computing,[]⟩

inductive Action
  | tick (millis : ℕ)
  | schedule (deadline : ℤ)
  | wake (waker : Timer)
  | untilNearest
  | wait
  | timeout
  | ready
  | run
  | fire

/-- How long the poller may wait before the nearest deadline, or -1 with none. -/
def untilNearest (now : ℤ) (heap : List Timer) : ℤ :=
  match heap with
  | [] => -1
  | top :: _ => if top.deadline - now < 0 then 0 else top.deadline - now

def State.wakePoller (s : State) : State :=
  match s.phase with
  | .waiting _ _ _ => { s with phase := .returned }
  | _ => { s with wakeKept := true }

def step (s : State) : Action → Option State
  | .tick millis => some { s with now := s.now + millis }
  | .schedule deadline => (pushed s.heap ⟨s.made,deadline⟩).map fun (heap,nearest) =>
    { s with heap := heap, made := s.made + 1, wakers := if nearest then ⟨s.made,deadline⟩ :: s.wakers else s.wakers }
  | .wake waker => if waker ∈ s.wakers then some ({ s with wakers := s.wakers.erase waker }.wakePoller) else none
  | .untilNearest =>
    match s.phase with
    | .computing => some { s with phase := .entering s.now (untilNearest s.now s.heap) }
    | _ => none
  | .wait =>
    match s.phase with
    | .entering readAt left =>
      if s.wakeKept then some { s with wakeKept := false, phase := .returned } else some { s with phase := .waiting readAt left s.now }
    | _ => none
  | .timeout =>
    match s.phase with
    | .waiting _ left begun => if 0 ≤ left ∧ begun + left ≤ s.now then some { s with phase := .returned } else none
    | _ => none
  | .ready =>
    match s.phase with
    | .waiting _ _ _ => some { s with phase := .returned }
    | _ => none
  | .run =>
    match s.phase with
    | .returned => (takeDue s.now (s.heap.length + 1) s.heap).map fun (due,heap) => { s with heap := heap, phase := .firing due }
    | _ => none
  | .fire =>
    match s.phase with
    | .firing [] => some { s with phase := .computing }
    | .firing (timer :: due) => some { s with phase := .firing due, fired := s.fired ++ [timer] }
    | _ => none

def State.due (s : State) : List Timer :=
  match s.phase with
  | .firing due => due
  | _ => []

/-- A limit, counted from the time it was computed at, ends no later than a deadline, unless the deadline had passed by then. -/
def Covers (readAt left : ℤ) (t : Timer) : Prop := 0 ≤ left ∧ readAt + left ≤ max t.deadline readAt

/-- A call still has to wake the poller for a timer that is no later. -/
def WakePending (s : State) (t : Timer) : Prop := ∃ waker ∈ s.wakers, NoLater waker t

structure Inv (s : State) : Prop where
  heaped : Heaped s.heap
  made : ∀ t ∈ s.heap ++ s.due ++ s.fired, t.id < s.made
  distinct : ((s.heap ++ s.due ++ s.fired).map Timer.id).Nodup
  entering : ∀ readAt left, s.phase = .entering readAt left → s.wakeKept = true ∨ ∀ t ∈ s.heap, Covers readAt left t ∨ WakePending s t
  waiting : ∀ readAt left begun, s.phase = .waiting readAt left begun → ∀ t ∈ s.heap, Covers readAt left t ∨ WakePending s t

variable {s t : State} {a : Action} {timer other : Timer} {readAt left : ℤ} {heap : List Timer}

theorem Covers.mono (h : Covers readAt left timer) (hle : NoLater timer other) : Covers readAt left other := by
  obtain ⟨hpos,hend⟩ := h
  have hdeadline : timer.deadline ≤ other.deadline := hle
  exact ⟨hpos,by omega⟩

theorem inv_start : Inv start where
  heaped := fun i _ a b ha => by simp [start] at ha
  made _ h := by simp [start,State.due] at h
  distinct := List.nodup_nil
  entering _ _ h := by cases h
  waiting _ _ _ h := by cases h

theorem untilNearest_covers (h : Heaped heap) (now : ℤ) : ∀ t ∈ heap, Covers now (untilNearest now heap) t := by
  cases heap with
  | nil => exact fun _ ht => absurd ht List.not_mem_nil
  | cons top rest =>
    have htop : Covers now (untilNearest now (top :: rest)) top := by
      rw [untilNearest,Covers]
      split_ifs <;> omega
    intro t ht
    rcases List.mem_cons.mp ht with rfl | ht
    · exact htop
    · exact htop.mono (h.first t ht)

theorem schedule_covers {s' : State} {nearest : Bool} (hcovers : ∀ t ∈ s.heap, Covers readAt left t ∨ WakePending s t)
    (hperm : s'.heap.Perm (timer :: s.heap)) (hnearest : nearest = false → ∃ t ∈ s.heap, NoLater t timer)
    (hwakers : s'.wakers = if nearest then timer :: s.wakers else s.wakers) : ∀ t ∈ s'.heap, Covers readAt left t ∨ WakePending s' t := by
  have hkeep : ∀ t, WakePending s t → WakePending s' t := by
    rintro t ⟨waker,hw,hle⟩
    refine ⟨waker,?_,hle⟩
    rw [hwakers]
    split_ifs
    · exact List.mem_cons_of_mem _ hw
    · exact hw
  intro t ht
  rcases List.mem_cons.mp (hperm.subset ht) with rfl | ht
  · cases nearest with
    | true => exact Or.inr ⟨t,by rw [hwakers]; exact List.mem_cons_self,le_refl _⟩
    | false =>
      obtain ⟨u,hu,hle⟩ := hnearest rfl
      rcases hcovers u hu with hc | ⟨waker,hw,hwu⟩
      · exact Or.inl (hc.mono hle)
      · exact Or.inr (hkeep t ⟨waker,hw,NoLater.trans waker u t hwu hle⟩)
  · exact (hcovers t ht).imp_right (hkeep t)

/-! ### Steps -/

theorem due_of_phase {due : List Timer} (h : s.phase = .firing due) : s.due = due := by
  rw [State.due,h]

theorem due_nil (h : ∀ due, s.phase ≠ .firing due) : s.due = [] := by
  rw [State.due]
  split
  next due hp => exact absurd hp (h due)
  next => rfl

theorem Inv.places (s' : State) (h : Inv s) (hmade : s'.made = s.made)
    (hperm : (s'.heap ++ s'.due ++ s'.fired).Perm (s.heap ++ s.due ++ s.fired)) :
    (∀ t ∈ s'.heap ++ s'.due ++ s'.fired, t.id < s'.made) ∧ ((s'.heap ++ s'.due ++ s'.fired).map Timer.id).Nodup :=
  ⟨fun t ht => hmade ▸ h.made t (hperm.subset ht),((hperm.map Timer.id).nodup_iff).mpr h.distinct⟩

theorem Inv.schedule {deadline : ℤ} {heap : List Timer} {nearest : Bool} (h : Inv s) (hpush : pushed s.heap ⟨s.made,deadline⟩ = some (heap,nearest)) :
    Inv { s with heap := heap, made := s.made + 1, wakers := if nearest then ⟨s.made,deadline⟩ :: s.wakers else s.wakers } := by
  obtain ⟨ys,near,hys,hperm,hordered,hnearest⟩ := pushed_spec h.heaped ⟨s.made,deadline⟩
  cases hpush.symm.trans hys
  have hall : (heap ++ s.due ++ s.fired).Perm (⟨s.made,deadline⟩ :: (s.heap ++ s.due ++ s.fired)) :=
    (hperm.append_right s.due).append_right s.fired
  have hnew : ∀ t ∈ s.heap ++ s.due ++ s.fired, t.id ≠ s.made := fun t ht => Nat.ne_of_lt (h.made t ht)
  exact {
    heaped := hordered
    made := fun t ht => by
      rcases List.mem_cons.mp (hall.subset ht) with rfl | ht
      · exact Nat.lt_succ_self _
      · exact Nat.lt_succ_of_lt (h.made t ht)
    distinct := by
      refine ((hall.map Timer.id).nodup_iff).mpr ?_
      rw [List.map_cons,List.nodup_cons]
      refine ⟨fun hm => ?_,h.distinct⟩
      obtain ⟨t,ht,hid⟩ := List.mem_map.mp hm
      exact hnew t ht hid
    entering := fun readAt left hp => (h.entering readAt left hp).imp_right fun hcovers => schedule_covers hcovers hperm hnearest rfl
    waiting := fun readAt left begun hp => schedule_covers (h.waiting readAt left begun hp) hperm hnearest rfl }

theorem Inv.wake (h : Inv s) (waker : Timer) : Inv ({ s with wakers := s.wakers.erase waker }.wakePoller) := by
  rw [State.wakePoller]
  split
  next readAt left begun hp =>
    have hnone : s.due = [] := due_nil fun due hd => by cases hp.symm.trans hd
    obtain ⟨hmade,hdistinct⟩ := h.places { s with wakers := s.wakers.erase waker, phase := .returned } rfl
      (by rw [hnone]; exact .refl _)
    exact ⟨h.heaped,hmade,hdistinct,fun _ _ hp => (by cases hp),fun _ _ _ hp => (by cases hp)⟩
  next hp =>
    exact ⟨h.heaped,h.made,h.distinct,fun _ _ _ => Or.inl rfl,fun readAt left begun hw => absurd hw (hp readAt left begun)⟩

theorem Inv.thread {phase : Phase} {fired : List Timer} {wakeKept : Bool} (h : Inv s)
    (hperm : (s.heap ++ ({ s with phase := phase } : State).due ++ fired).Perm (s.heap ++ s.due ++ s.fired))
    (hentering : ∀ readAt left, phase = .entering readAt left → wakeKept = true ∨ ∀ t ∈ s.heap, Covers readAt left t ∨ WakePending s t)
    (hwaiting : ∀ readAt left begun, phase = .waiting readAt left begun → ∀ t ∈ s.heap, Covers readAt left t ∨ WakePending s t) :
    Inv { s with phase := phase, fired := fired, wakeKept := wakeKept } := by
  obtain ⟨hmade,hdistinct⟩ := h.places { s with phase := phase, fired := fired, wakeKept := wakeKept } rfl hperm
  exact ⟨h.heaped,hmade,hdistinct,hentering,hwaiting⟩

theorem Inv.run {due heap : List Timer} (h : Inv s) (hp : s.phase = .returned)
    (htake : takeDue s.now (s.heap.length + 1) s.heap = some (due,heap)) : Inv { s with heap := heap, phase := .firing due } := by
  obtain ⟨due',rest,hspec,hparts,hordered,-⟩ := takeDue_spec s.now h.heaped (Nat.lt_succ_self _)
  cases htake.symm.trans hspec
  have hnone : s.due = [] := due_nil fun due hd => by cases hp.symm.trans hd
  obtain ⟨hmade,hdistinct⟩ := h.places { s with heap := heap, phase := .firing due } rfl (by
    rw [hnone,List.append_nil]
    exact (List.perm_append_comm.trans hparts).append_right s.fired)
  exact ⟨hordered,hmade,hdistinct,fun _ _ hp => (by cases hp),fun _ _ _ hp => (by cases hp)⟩

theorem Inv.step (h : Inv s) (hs : step s a = some t) : Inv t := by
  cases a with
  | tick millis =>
    cases hs
    exact ⟨h.heaped,h.made,h.distinct,h.entering,h.waiting⟩
  | schedule deadline =>
    obtain ⟨⟨heap,nearest⟩,hpush,rfl⟩ := Option.map_eq_some_iff.mp hs
    exact h.schedule hpush
  | wake waker =>
    rw [Events.step] at hs
    split_ifs at hs with hm
    cases hs
    exact h.wake waker
  | untilNearest =>
    rw [Events.step] at hs
    split at hs
    next hp =>
      cases hs
      have hnone : s.due = [] := due_nil fun due hd => by cases hp.symm.trans hd
      refine h.thread (by rw [hnone]; exact .refl _) (fun readAt left he => Or.inr fun t ht => Or.inl ?_) fun _ _ _ hw => by cases hw
      cases he
      exact untilNearest_covers h.heaped s.now t ht
    next => cases hs
  | wait =>
    rw [Events.step] at hs
    split at hs
    next readAt left hp =>
      have hnone : s.due = [] := due_nil fun due hd => by cases hp.symm.trans hd
      split_ifs at hs with hkept
      · cases hs
        exact h.thread (by rw [hnone]; exact .refl _) (fun _ _ he => by cases he) fun _ _ _ hw => by cases hw
      · cases hs
        refine h.thread (by rw [hnone]; exact .refl _) (fun _ _ he => by cases he) fun readAt' left' begun hw => ?_
        cases hw
        exact (h.entering readAt left hp).resolve_left hkept
    next => cases hs
  | timeout =>
    rw [Events.step] at hs
    split at hs
    next readAt left begun hp =>
      have hnone : s.due = [] := due_nil fun due hd => by cases hp.symm.trans hd
      split_ifs at hs with hpassed
      cases hs
      exact h.thread (by rw [hnone]; exact .refl _) (fun _ _ he => by cases he) fun _ _ _ hw => by cases hw
    next => cases hs
  | ready =>
    rw [Events.step] at hs
    split at hs
    next readAt left begun hp =>
      cases hs
      have hnone : s.due = [] := due_nil fun due hd => by cases hp.symm.trans hd
      exact h.thread (by rw [hnone]; exact .refl _) (fun _ _ he => by cases he) fun _ _ _ hw => by cases hw
    next => cases hs
  | run =>
    rw [Events.step] at hs
    split at hs
    next hp =>
      obtain ⟨⟨due,heap⟩,htake,rfl⟩ := Option.map_eq_some_iff.mp hs
      exact h.run hp htake
    next => cases hs
  | fire =>
    rw [Events.step] at hs
    split at hs
    next hp =>
      cases hs
      refine h.thread ?_ (fun _ _ he => by cases he) fun _ _ _ hw => by cases hw
      rw [due_of_phase hp]
      exact .refl _
    next timer due hp =>
      cases hs
      refine h.thread ?_ (fun _ _ he => by cases he) fun _ _ _ hw => by cases hw
      rw [due_of_phase hp,List.append_assoc,List.append_assoc]
      refine (List.Perm.refl s.heap).append ?_
      have hmiddle : (due ++ (s.fired ++ [timer])).Perm (timer :: (due ++ s.fired)) := by
        rw [← List.append_assoc]
        exact List.perm_append_singleton timer (due ++ s.fired)
      exact hmiddle
    next => cases hs

/-! ### No deadline is lost -/

def isDue (now : ℤ) (t : Timer) : Bool := t.deadline ≤ now

/-- A section under the lock takes just the timers that are due, in the order of their deadlines. -/
def TakesDue (heap : List Timer) : Prop := ∀ now, ∃ due rest, takeDue now (heap.length + 1) heap = some (due,rest) ∧
  due.Perm (heap.filter (isDue now)) ∧ rest.Perm (heap.filter fun t => !isDue now t) ∧ due.Pairwise NoLater

/-- A wait ends no later than a deadline on the heap, or at once where that has passed, unless a call still has to wake the poller for it. -/
def EndsInTime (s : State) : Prop := ∀ readAt left begun, s.phase = .waiting readAt left begun → ∀ t ∈ s.heap,
  (0 ≤ left ∧ begun + left ≤ max t.deadline begun) ∨ WakePending s t

/-- The heap is in order, no section under the lock fails, a section takes what is due, no timer is fired twice or stays on the heap, and a
wait covers the deadlines, counted from when it was computed. -/
structure Sound (s : State) : Prop where
  heaped : Heaped s.heap
  pushes : ∀ timer, (pushed s.heap timer).isSome
  takesDue : TakesDue s.heap
  once : s.fired.Nodup ∧ ∀ t ∈ s.fired, t ∉ s.heap ∧ t ∉ s.due
  covered : ∀ readAt left begun, s.phase = .waiting readAt left begun → ∀ t ∈ s.heap, Covers readAt left t ∨ WakePending s t

theorem Heaped.takesDue (h : Heaped heap) : TakesDue heap := by
  intro now
  obtain ⟨due,rest,htake,hparts,-,hpassed,hleft,hsorted⟩ := takeDue_spec now h (Nat.lt_succ_self _)
  have hdue : ∀ t ∈ due, isDue now t = true := fun t ht => decide_eq_true (hpassed t ht)
  have hrest : ∀ t ∈ rest, isDue now t = false := fun t ht => decide_eq_false (not_le.mpr (hleft t ht))
  refine ⟨due,rest,htake,?_,?_,hsorted⟩
  · have hfilter := hparts.filter (isDue now)
    rw [List.filter_append,List.filter_eq_self.mpr hdue,List.filter_eq_nil_iff.mpr fun t ht => by rw [hrest t ht]; decide,
      List.append_nil] at hfilter
    exact hfilter
  · have hfilter := hparts.filter fun t => !isDue now t
    rw [List.filter_append,List.filter_eq_nil_iff.mpr fun t ht => by rw [hdue t ht]; decide,
      List.filter_eq_self.mpr fun t ht => by rw [hrest t ht]; rfl,List.nil_append] at hfilter
    exact hfilter

theorem Inv.sound (h : Inv s) : Sound s := by
  have hnodup := h.distinct.of_map
  obtain ⟨-,hfired,hapart⟩ := List.nodup_append.mp hnodup
  refine ⟨h.heaped,fun timer => ?_,h.heaped.takesDue,⟨hfired,fun t ht => ⟨fun hm => ?_,fun hm => ?_⟩⟩,h.waiting⟩
  · obtain ⟨ys,nearest,hpush,-⟩ := pushed_spec h.heaped timer
    rw [hpush]
    rfl
  · exact hapart t (List.mem_append_left _ hm) t ht rfl
  · exact hapart t (List.mem_append_right _ hm) t ht rfl

def lateRun : List Action := [.schedule 100,.wake ⟨0,100⟩,.untilNearest,.wait,.run,.fire,.untilNearest,.tick 1,.wait]

end Ens.Tasks.Events
