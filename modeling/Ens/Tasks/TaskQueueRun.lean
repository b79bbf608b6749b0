import Ens.Tasks.TaskQueue
import Mathlib.Algebra.BigOperators.Group.Finset.Basic
import Mathlib.Algebra.Order.Group.Multiset
import Mathlib.Tactic.Abel

/-! # Threads that share queues of tasks

Any thread may push to any queue, take from any, and move half of one to another, which is a section under the lock of the first queue
and then one under the lock of the second for each task that goes there. In whatever order the sections of several threads follow each
other, the queues hold what sequences hold that are changed in the same order, and no task is lost on the way.
-/
set_option linter.all false
namespace Ens.Tasks.TaskRing
open Loop Collections.ListStore
variable {Q Th Task : Type} [DecidableEq Q] [DecidableEq Th]

/-! ### The code -/

/-- Where a thread is: outside every call, or in `moveHalfInto` between its sections, `i` the next task to move. -/
inductive Call (Q Task : Type)
  | idle
  | moving (into : Q) (moved : List Task) (i : ℕ)

inductive Action (Q Task : Type)
  | push (queue : Q) (task : Task)
  | pop (queue : Q)
  | moveHalf (queue into : Q)
  | goOn

inductive Result (Task : Type)
  | queued (count : ℕ)
  | task (task : Option Task)
  | unfinished

structure System (Q Th Task : Type) where
  queues : Q → TaskQueue Task
  calls : Th → Call Q Task

def System.start : System Q Th Task := ⟨fun _ => .new,fun _ => .idle⟩

def System.step (s : System Q Th Task) (thread : Th) : Action Q Task → Option (Except Stop (Result Task × System Q Th Task))
  | .push q task =>
    match s.calls thread with
    | .idle => some do
      let (queued,queue) ← (s.queues q).push task
      .ok (.queued queued,{ s with queues := Function.update s.queues q queue })
    | .moving .. => none
  | .pop q =>
    match s.calls thread with
    | .idle => some do
      let (task,queue) ← (s.queues q).pop
      .ok (.task task,{ s with queues := Function.update s.queues q queue })
    | .moving .. => none
  | .moveHalf q into =>
    match s.calls thread with
    | .idle => some do
      let (moved,queue) ← (s.queues q).takeHalf
      let s := { s with queues := Function.update s.queues q queue }
      if moved.isEmpty then .ok (.task none,s)
      else .ok (.unfinished,{ s with calls := Function.update s.calls thread (.moving into moved 1) })
    | .moving .. => none
  | .goOn =>
    match s.calls thread with
    | .idle => none
    | .moving into moved i =>
      if hi : i < moved.length then some do
        let (_,queue) ← (s.queues into).push moved[i]
        .ok (.unfinished,{ queues := Function.update s.queues into queue, calls := Function.update s.calls thread (.moving into moved (i + 1)) })
      else some (.ok (.task moved.head?,{ s with calls := Function.update s.calls thread .idle }))

/-! ### Sequences -/

/-- What the queues hold as sequences, and the books kept of them: what entered and what left each queue in order, the tasks that came in
from outside, and those that calls returned. -/
structure Books (Q Th Task : Type) where
  contents : Q → List Task
  calls : Th → Call Q Task
  entered : Q → List Task
  left : Q → List Task
  given : Multiset Task
  returned : Multiset Task

def Books.start : Books Q Th Task := ⟨fun _ => [],fun _ => .idle,fun _ => [],fun _ => [],0,0⟩

def Books.enter (b : Books Q Th Task) (q : Q) (task : Task) : Books Q Th Task :=
  { b with
    contents := Function.update b.contents q (b.contents q ++ [task])
    entered := Function.update b.entered q (b.entered q ++ [task]) }

def Books.leave (b : Books Q Th Task) (q : Q) (n : ℕ) : Books Q Th Task :=
  { b with
    contents := Function.update b.contents q ((b.contents q).drop n)
    left := Function.update b.left q (b.left q ++ (b.contents q).take n) }

def Books.give (b : Books Q Th Task) (task : Task) : Books Q Th Task := { b with given := b.given + {task} }

def Books.hand (b : Books Q Th Task) (tasks : Multiset Task) : Books Q Th Task := { b with returned := b.returned + tasks }

def Books.call (b : Books Q Th Task) (thread : Th) (call : Call Q Task) : Books Q Th Task :=
  { b with calls := Function.update b.calls thread call }

/-- What a call does to sequences. A move takes the older half of a queue, rounded up, returns the first of these tasks, and before that
puts the others in order at the back of the other queue, one section at a time. -/
def Books.after (b : Books Q Th Task) (thread : Th) : Action Q Task → Option (Result Task × Books Q Th Task)
  | .push q task =>
    match b.calls thread with
    | .idle => some (.queued ((b.contents q).length + 1),(b.enter q task).give task)
    | .moving .. => none
  | .pop q =>
    match b.calls thread with
    | .idle =>
      match b.contents q with
      | [] => some (.task none,b)
      | task :: _ => some (.task (some task),(b.leave q 1).hand {task})
    | .moving .. => none
  | .moveHalf q into =>
    match b.calls thread with
    | .idle =>
      match b.contents q with
      | [] => some (.task none,b)
      | tasks => some (.unfinished,(b.leave q ((tasks.length + 1) / 2)).call thread (.moving into (tasks.take ((tasks.length + 1) / 2)) 1))
    | .moving .. => none
  | .goOn =>
    match b.calls thread with
    | .idle => none
    | .moving into moved i =>
      if hi : i < moved.length then some (.unfinished,(b.enter into moved[i]).call thread (.moving into moved (i + 1)))
      else some (.task moved.head?,(b.call thread .idle).hand (moved.take 1 : List Task))

/-! ### What the books say -/

/-- The tasks a thread has on the way: the first, which it returns, and those not put into the other queue yet. -/
def Call.onTheWay : Call Q Task → Multiset Task
  | .idle => 0
  | .moving _ moved i => (moved.take 1 ++ moved.drop i : List Task)

variable [Fintype Q] [Fintype Th]

def Books.total (b : Books Q Th Task) : Multiset Task := ∑ q, (b.contents q : Multiset Task) + ∑ t, (b.calls t).onTheWay + b.returned

/-- Each queue gives its tasks up in the order they entered it, and every task that came in is in one queue, on the way in one call, or was
returned by one, as often as it came in. A move under way has a first task. -/
structure Balanced (b : Books Q Th Task) : Prop where
  fifo : ∀ q, b.entered q = b.left q ++ b.contents q
  conserved : b.given = b.total
  begun : ∀ t into moved i, b.calls t = .moving into moved i → 0 < i ∧ moved ≠ []

/-- The queues hold these sequences, each knows how many tasks it has, and the threads are at the same places. -/
structure Agrees (s : System Q Th Task) (b : Books Q Th Task) : Prop where
  queues : ∀ q, Holds (s.queues q) (b.contents q)
  calls : s.calls = b.calls

/-! ### One section -/

variable {s : System Q Th Task} {b : Books Q Th Task} {thread : Th} {q : Q} {task : Task}

omit [DecidableEq Th] [Fintype Q] [Fintype Th] in
theorem holds_update {queues : Q → TaskQueue Task} {contents : Q → List Task} {queue : TaskQueue Task} {xs : List Task}
    (h : ∀ q, Holds (queues q) (contents q)) (hq : Holds queue xs) (q' : Q) :
    Holds (Function.update queues q queue q') (Function.update contents q xs q') := by
  by_cases he : q' = q
  · rw [he,Function.update_self,Function.update_self]
    exact hq
  · rw [Function.update_of_ne he,Function.update_of_ne he]
    exact h q'

omit [Fintype Q] [Fintype Th] in
/-- A section ends, gives what it gives on the sequences, and leaves the queues as it leaves these. -/
theorem Agrees.step (h : Agrees s b) (thread : Th) (action : Action Q Task) :
    match b.after thread action with
    | none => s.step thread action = none
    | some (result,b') => ∃ s', s.step thread action = some (.ok (result,s')) ∧ Agrees s' b' := by
  obtain ⟨queues,calls⟩ := s
  obtain rfl : calls = b.calls := h.calls
  cases action with
  | push q task =>
    rw [Books.after,System.step]
    dsimp only
    cases b.calls thread with
    | moving into moved i => rfl
    | idle =>
      obtain ⟨queue,hpush,hholds⟩ := push_ok (h.queues q) task
      dsimp only
      rw [hpush,ok_bind]
      exact ⟨_,rfl,holds_update h.queues hholds,rfl⟩
  | pop q =>
    rw [Books.after,System.step]
    dsimp only
    cases b.calls thread with
    | moving into moved i => rfl
    | idle =>
      have hq := h.queues q
      dsimp only
      cases hc : b.contents q with
      | nil =>
        rw [hc] at hq
        dsimp only
        rw [TaskQueue.pop,popHeld_nil hq,ok_bind]
        refine ⟨_,rfl,fun q' => ?_,rfl⟩
        rw [Function.update_eq_self]
        exact h.queues q'
      | cons task rest =>
        rw [hc] at hq
        obtain ⟨queue,hpop,hholds⟩ := popHeld_cons hq
        dsimp only
        rw [TaskQueue.pop,hpop,ok_bind]
        refine ⟨_,rfl,holds_update h.queues ?_,rfl⟩
        rw [hc]
        exact hholds
  | moveHalf q into =>
    rw [Books.after,System.step]
    dsimp only
    cases b.calls thread with
    | moving into moved i => rfl
    | idle =>
      obtain ⟨queue,htake,hholds⟩ := takeHalf_ok (h.queues q)
      dsimp only
      rw [htake,ok_bind]
      dsimp only
      cases hc : b.contents q with
      | nil =>
        rw [hc] at hholds
        dsimp only
        rw [List.take_nil,if_pos List.isEmpty_nil]
        refine ⟨_,rfl,fun q' => ?_,rfl⟩
        have hkeep := holds_update (q := q) h.queues hholds q'
        rwa [List.drop_nil,← hc,Function.update_eq_self] at hkeep
      | cons task rest =>
        have hmoved : ((task :: rest).take (((task :: rest).length + 1) / 2)).isEmpty = false := by
          rw [List.length_cons,show (rest.length + 1 + 1) / 2 = rest.length / 2 + 1 by omega]
          rfl
        rw [hc] at hholds
        dsimp only
        rw [hmoved,if_neg Bool.false_ne_true]
        refine ⟨_,rfl,holds_update h.queues ?_,rfl⟩
        rw [hc]
        exact hholds
  | goOn =>
    rw [Books.after,System.step]
    dsimp only
    cases b.calls thread with
    | idle => rfl
    | moving into moved i =>
      dsimp only
      split_ifs with hi
      · obtain ⟨queue,hpush,hholds⟩ := push_ok (h.queues into) moved[i]
        rw [hpush,ok_bind]
        exact ⟨_,rfl,holds_update h.queues hholds,rfl⟩
      · exact ⟨_,rfl,h.queues,rfl⟩

/-! ### The books -/

omit [DecidableEq Q] [DecidableEq Th] [Fintype Q] [Fintype Th] in
theorem sum_update {ι A : Type} [Fintype ι] [DecidableEq ι] (F : A → Multiset Task) (g : ι → A) (i : ι) (a : A) :
    ∑ x, F (Function.update g i a x) + F (g i) = ∑ x, F (g x) + F a := by
  have hothers : ∑ x ∈ Finset.univ.erase i, F (Function.update g i a x) = ∑ x ∈ Finset.univ.erase i, F (g x) :=
    Finset.sum_congr rfl fun x hx => by rw [Function.update_of_ne (Finset.ne_of_mem_erase hx)]
  rw [← Finset.add_sum_erase _ _ (Finset.mem_univ i),hothers,Function.update_self,← Finset.add_sum_erase _ (fun x => F (g x)) (Finset.mem_univ i)]
  abel

omit [DecidableEq Th] in
theorem total_enter (b : Books Q Th Task) (q : Q) (task : Task) : (b.enter q task).total = b.total + {task} := by
  have hsum := sum_update (fun xs : List Task => (xs : Multiset Task)) b.contents q (b.contents q ++ [task])
  rw [← Multiset.coe_add,Multiset.coe_singleton,← add_assoc,add_right_comm] at hsum
  have hcontents : ∑ q', ((b.enter q task).contents q' : Multiset Task) = ∑ q', (b.contents q' : Multiset Task) + {task} := add_right_cancel hsum
  rw [Books.total,Books.total,hcontents,Books.enter]
  abel

omit [DecidableEq Th] in
theorem total_leave (b : Books Q Th Task) (q : Q) (n : ℕ) : (b.leave q n).total + ((b.contents q).take n : List Task) = b.total := by
  have hsum := sum_update (fun xs : List Task => (xs : Multiset Task)) b.contents q ((b.contents q).drop n)
  have hsplit : (b.contents q : Multiset Task) = ((b.contents q).take n : List Task) + ((b.contents q).drop n : List Task) := by
    rw [Multiset.coe_add,List.take_append_drop]
  rw [hsplit,← add_assoc] at hsum
  have hcontents : ∑ q', ((b.leave q n).contents q' : Multiset Task) + ((b.contents q).take n : List Task) =
      ∑ q', (b.contents q' : Multiset Task) := add_right_cancel hsum
  rw [Books.total,Books.total,← hcontents,Books.leave]
  abel

omit [DecidableEq Q] in
theorem total_call (b : Books Q Th Task) (thread : Th) (call : Call Q Task) :
    (b.call thread call).total + (b.calls thread).onTheWay = b.total + call.onTheWay := by
  have hsum : ∑ t, ((b.call thread call).calls t).onTheWay + (b.calls thread).onTheWay = ∑ t, (b.calls t).onTheWay + call.onTheWay :=
    sum_update Call.onTheWay b.calls thread call
  calc (b.call thread call).total + (b.calls thread).onTheWay
      = ∑ q, (b.contents q : Multiset Task) + (∑ t, ((b.call thread call).calls t).onTheWay + (b.calls thread).onTheWay) + b.returned := by
        rw [Books.total,Books.call]
        abel
    _ = b.total + call.onTheWay := by
        rw [hsum,Books.total]
        abel

omit [DecidableEq Q] [DecidableEq Th] in
theorem total_hand (b : Books Q Th Task) (tasks : Multiset Task) : (b.hand tasks).total = b.total + tasks :=
  (add_assoc _ b.returned tasks).symm

omit [DecidableEq Th] [Fintype Q] [Fintype Th] in
theorem fifo_enter (h : ∀ q, b.entered q = b.left q ++ b.contents q) (q : Q) (task : Task) (q' : Q) :
    (b.enter q task).entered q' = (b.enter q task).left q' ++ (b.enter q task).contents q' := by
  rw [Books.enter]
  dsimp only
  by_cases he : q' = q
  · rw [he,Function.update_self,Function.update_self,h,List.append_assoc]
  · rw [Function.update_of_ne he,Function.update_of_ne he,h]

omit [DecidableEq Th] [Fintype Q] [Fintype Th] in
theorem fifo_leave (h : ∀ q, b.entered q = b.left q ++ b.contents q) (q : Q) (n : ℕ) (q' : Q) :
    (b.leave q n).entered q' = (b.leave q n).left q' ++ (b.leave q n).contents q' := by
  rw [Books.leave]
  dsimp only
  by_cases he : q' = q
  · rw [he,Function.update_self,Function.update_self,h,List.append_assoc,List.take_append_drop]
  · rw [Function.update_of_ne he,Function.update_of_ne he,h]

omit [DecidableEq Q] [Fintype Q] in
theorem Call.onTheWay_first (into : Q) (moved : List Task) : (Call.moving into moved 1).onTheWay = moved := by
  rw [Call.onTheWay,List.take_append_drop]

omit [DecidableEq Q] [Fintype Q] in
theorem Call.onTheWay_next {into : Q} {moved : List Task} {i : ℕ} (hi : i < moved.length) :
    (Call.moving into moved i).onTheWay = (Call.moving into moved (i + 1)).onTheWay + {moved[i]} := by
  rw [Call.onTheWay,Call.onTheWay,List.drop_eq_getElem_cons hi,← Multiset.coe_singleton,Multiset.coe_add]
  refine Multiset.coe_eq_coe.mpr ?_
  rw [List.append_assoc]
  exact (List.perm_append_singleton _ _).symm.append_left _

omit [DecidableEq Q] [Fintype Q] [Fintype Th] in
theorem begun_call (h : ∀ t into moved i, b.calls t = .moving into moved i → 0 < i ∧ moved ≠ []) {call : Call Q Task}
    (hcall : ∀ into moved i, call = .moving into moved i → 0 < i ∧ moved ≠ []) :
    ∀ t into moved i, (b.call thread call).calls t = .moving into moved i → 0 < i ∧ moved ≠ [] := by
  intro t into moved i ht
  rw [Books.call] at ht
  dsimp only at ht
  by_cases he : t = thread
  · rw [he,Function.update_self] at ht
    exact hcall into moved i ht
  · rw [Function.update_of_ne he] at ht
    exact h t into moved i ht

theorem Balanced.after (h : Balanced b) {action : Action Q Task} {result : Result Task} {b' : Books Q Th Task}
    (hafter : b.after thread action = some (result,b')) : Balanced b' := by
  have hgiven := h.conserved
  cases action with
  | push q task =>
    rw [Books.after] at hafter
    cases hcall : b.calls thread with
    | moving into moved i =>
      rw [hcall] at hafter
      cases hafter
    | idle =>
      rw [hcall] at hafter
      cases hafter
      refine ⟨fifo_enter h.fifo q task,?_,h.begun⟩
      exact (congrArg (· + {task}) hgiven).trans (total_enter b q task).symm
  | pop q =>
    rw [Books.after] at hafter
    cases hcall : b.calls thread with
    | moving into moved i =>
      rw [hcall] at hafter
      cases hafter
    | idle =>
      rw [hcall] at hafter
      dsimp only at hafter
      cases hc : b.contents q with
      | nil =>
        rw [hc] at hafter
        cases hafter
        exact h
      | cons task rest =>
        rw [hc] at hafter
        cases hafter
        refine ⟨fifo_leave h.fifo q 1,?_,h.begun⟩
        have hleave := total_leave b q 1
        rw [hc,List.take_succ_cons,List.take_zero,Multiset.coe_singleton] at hleave
        exact hgiven.trans (hleave.symm.trans (total_hand _ _).symm)
  | moveHalf q into =>
    rw [Books.after] at hafter
    cases hcall : b.calls thread with
    | moving into moved i =>
      rw [hcall] at hafter
      cases hafter
    | idle =>
      rw [hcall] at hafter
      dsimp only at hafter
      cases hc : b.contents q with
      | nil =>
        rw [hc] at hafter
        cases hafter
        exact h
      | cons task rest =>
        rw [hc] at hafter
        cases hafter
        refine ⟨fifo_leave h.fifo q _,?_,begun_call h.begun ?_⟩
        · have hleave := total_leave b q (((task :: rest).length + 1) / 2)
          have hway := total_call (b.leave q (((task :: rest).length + 1) / 2)) thread
            (.moving into ((task :: rest).take (((task :: rest).length + 1) / 2)) 1)
          rw [show (b.leave q (((task :: rest).length + 1) / 2)).calls thread = .idle from hcall,Call.onTheWay_first,Call.onTheWay,
            add_zero] at hway
          rw [hc] at hleave
          exact hgiven.trans (hleave.symm.trans hway.symm)
        · rintro into' moved i he
          cases he
          refine ⟨Nat.one_pos,fun hnil => ?_⟩
          rw [List.length_cons,show (rest.length + 1 + 1) / 2 = rest.length / 2 + 1 by omega] at hnil
          cases hnil
  | goOn =>
    rw [Books.after] at hafter
    cases hcall : b.calls thread with
    | idle =>
      rw [hcall] at hafter
      cases hafter
    | moving into moved i =>
      obtain ⟨hpos,hmoved⟩ := h.begun thread into moved i hcall
      rw [hcall] at hafter
      dsimp only at hafter
      split_ifs at hafter with hi
      · cases hafter
        refine ⟨fifo_enter h.fifo into moved[i],?_,begun_call h.begun ?_⟩
        · have henter := total_enter b into moved[i]
          have hway := total_call (b.enter into moved[i]) thread (.moving into moved (i + 1))
          rw [show (b.enter into moved[i]).calls thread = .moving into moved i from hcall,Call.onTheWay_next hi,henter,
            ← add_assoc,add_right_comm b.total] at hway
          exact hgiven.trans (add_right_cancel (add_right_cancel hway)).symm
        · rintro into' moved' i' he
          cases he
          exact ⟨Nat.succ_pos i,hmoved⟩
      · cases hafter
        refine ⟨h.fifo,?_,begun_call h.begun fun _ _ _ he => by cases he⟩
        have hway := total_call b thread .idle
        rw [hcall,Call.onTheWay,Call.onTheWay,List.drop_eq_nil_of_le (not_lt.mp hi),List.append_nil,add_zero] at hway
        exact hgiven.trans (hway.symm.trans (total_hand _ _).symm)

/-! ### Runs -/

/-- Before and after each section the queues agree with the books, and the books balance. A section that starts where its thread is not
is left out. -/
def Follows (s : System Q Th Task) (b : Books Q Th Task) : List (Th × Action Q Task) → Prop
  | [] => Agrees s b ∧ Balanced b
  | (thread,action) :: rest => (Agrees s b ∧ Balanced b) ∧
    match b.after thread action with
    | none => s.step thread action = none ∧ Follows s b rest
    | some (result,b') => ∃ s', s.step thread action = some (.ok (result,s')) ∧ Follows s' b' rest

theorem Agrees.follows (h : Agrees s b) (hb : Balanced b) (sections : List (Th × Action Q Task)) : Follows s b sections := by
  induction sections generalizing s b with
  | nil => exact ⟨h,hb⟩
  | cons next rest ih =>
    obtain ⟨thread,action⟩ := next
    have hstep := h.step thread action
    refine ⟨⟨h,hb⟩,?_⟩
    cases hafter : b.after thread action with
    | none =>
      rw [hafter] at hstep
      exact ⟨hstep,ih h hb⟩
    | some after =>
      rw [hafter] at hstep
      obtain ⟨s',hs,hagrees⟩ := hstep
      exact ⟨s',hs,ih hagrees (hb.after hafter)⟩

/-- The sections of any number of threads, in any order, change any number of queues as they change sequences, and lose no task. -/
theorem follows_books (sections : List (Th × Action Q Task)) : Follows (System.start : System Q Th Task) Books.start sections := by
  have hagrees : Agrees (System.start : System Q Th Task) Books.start := ⟨fun _ => new_holds,rfl⟩
  have hbalanced : Balanced (Books.start : Books Q Th Task) := by
    refine ⟨fun _ => rfl,?_,fun _ _ _ _ he => by cases he⟩
    rw [Books.total,Books.start]
    simp [Call.onTheWay]
  exact hagrees.follows hbalanced sections

end Ens.Tasks.TaskRing
