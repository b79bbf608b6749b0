import Ens.Collections.StoreRing

/-! # The queue of tasks of a worker

A first-in, first-out queue under a lock, as a ring that grows when it is full. What a thread does while it has the lock is one step.
-/
namespace Ens.Tasks.TaskRing
open Loop Collections.ListStore
variable {Task : Type}

-- The sums and products below are of sizes of stores, which stay far from the end of a `long`.
structure TaskQueue (Task : Type) where
  size : ℕ
  slots : RawArray Task
  head : ℕ
  count : ℕ

namespace TaskQueue

def new : TaskQueue Task := ⟨0,RawArray.allocate 16,0,0⟩

def seemsEmpty (queue : TaskQueue Task) : Bool := queue.size = 0

def grow (queue : TaskQueue Task) : Except Stop (TaskQueue Task) := do
  let wider ← (List.range queue.count).foldlM (fun (wider,slots) i => do
    let place := (queue.head + i) % queue.slots.length
    let wider ← RawArray.write wider i (← RawArray.read slots place)
    .ok (wider,← RawArray.clear slots place)) (RawArray.allocate (queue.slots.length * 2),queue.slots)
  .ok { queue with slots := wider.1, head := 0 }

def withRoom (queue : TaskQueue Task) : Except Stop (TaskQueue Task) :=
  if queue.count = queue.slots.length then queue.grow else .ok queue

def push (queue : TaskQueue Task) (task : Task) : Except Stop (ℕ × TaskQueue Task) := do
  let queue ← queue.withRoom
  let slots ← queue.slots.write ((queue.head + queue.count) % queue.slots.length) task
  let queued := queue.count + 1
  .ok (queued,{ queue with slots := slots, count := queued, size := queued })

def popHeld (queue : TaskQueue Task) : Except Stop (Option Task × TaskQueue Task) :=
  if queue.count = 0 then .ok (none,queue)
  else do
    let task ← queue.slots.read queue.head
    let slots ← queue.slots.clear queue.head
    let count := queue.count - 1
    .ok (some task,{ size := count, slots := slots, head := (queue.head + 1) % queue.slots.length, count := count })

def pop (queue : TaskQueue Task) : Except Stop (Option Task × TaskQueue Task) := queue.popHeld

def length (queue : TaskQueue Task) : ℕ := queue.count

def takeHalf (queue : TaskQueue Task) : Except Stop (List Task × TaskQueue Task) :=
  (List.range ((queue.count + 1) / 2)).foldlM (fun (moved,queue) _ => do
    match ← popHeld queue with
    | (some task,queue) => .ok (moved ++ [task],queue)
    | (none,queue) => .ok (moved,queue)) ([],queue)

end TaskQueue

/-! ### One queue -/

variable {queue : TaskQueue Task} {xs : List Task} {task : Task}

structure Holds (queue : TaskQueue Task) (xs : List Task) : Prop where
  size : queue.size = xs.length
  head : queue.head < queue.slots.length
  count : queue.count = xs.length
  room : xs.length ≤ queue.slots.length
  slots : RingOf queue.slots queue.head xs

theorem new_holds : Holds (.new : TaskQueue Task) [] :=
  ⟨rfl,Nat.succ_pos 15,rfl,Nat.zero_le _,(ringOf_filled : RingOf (filled [] 16) 0 [])⟩

/-- Growth unwraps the ring. -/
theorem grow_ok (h : Holds queue xs) : ∃ queue', queue.grow = .ok queue' ∧ Holds queue' xs ∧ xs.length < queue'.slots.length := by
  have hhead := h.head
  have hroom := h.room
  obtain ⟨⟨wider,slots⟩,hrun,hwider,-⟩ := foldlM_range (n := xs.length)
    (f := fun (state : RawArray Task × RawArray Task) i => (do
      let place := (queue.head + i) % queue.slots.length
      let wider ← RawArray.write state.1 i (← RawArray.read state.2 place)
      .ok (wider,← RawArray.clear state.2 place) : Except Stop _))
    (I := fun i state => state.1 = filled (xs.take i) (queue.slots.length * 2 - i) ∧ state.2.length = queue.slots.length ∧
      Ring.Shows state.2 queue.head fun k => if k < i then none else xs[k]?)
    (b := (RawArray.allocate (queue.slots.length * 2),queue.slots)) (fun i hi (wider,slots) ⟨hwider,hlen,hshows⟩ => by
      dsimp only at hwider hlen hshows
      have hplace : (queue.head + i) % queue.slots.length = Ring.place slots.length queue.head i := by
        rw [hlen,Ring.place_eq_mod hhead (by omega)]
      have hslot : slots[Ring.place slots.length queue.head i]? = some xs[i]? := by
        rw [hshows i (by omega)]
        exact congrArg some (if_neg (Nat.lt_irrefl i))
      have hread : RawArray.read slots (Ring.place slots.length queue.head i) = .ok xs[i] := by
        rw [RawArray.read,hslot,List.getElem?_eq_getElem hi]
      have hwrite : RawArray.write wider i xs[i] = .ok (filled (xs.take (i + 1)) (queue.slots.length * 2 - (i + 1))) := by
        rw [hwider,show queue.slots.length * 2 - i = queue.slots.length * 2 - (i + 1) + 1 by omega,filled_succ,
          RawArray.write_middle (length_map_take hi.le),List.take_succ_eq_append_getElem hi,filled_concat]
      refine ⟨(filled (xs.take (i + 1)) (queue.slots.length * 2 - (i + 1)),slots.set (Ring.place slots.length queue.head i) none),?_,rfl,?_,?_⟩
      · dsimp only
        rw [hplace,hread,ok_bind,hwrite,ok_bind,RawArray.clear,put_place (hlen ▸ hhead) (by omega),ok_bind]
      · rw [List.length_set,hlen]
      · refine (hshows.set (hlen ▸ hhead) (by omega) none).congr fun k _ => ?_
        split_ifs <;> first | rfl | omega) ⟨by simp [filled,RawArray.allocate,Int.toNat_mul],rfl,h.slots.congr fun k _ => (if_neg (Nat.not_lt_zero k)).symm⟩
  dsimp only at hwider
  rw [List.take_length] at hwider
  refine ⟨{ queue with slots := wider, head := 0 },?_,⟨h.size,?_,h.count,?_,?_⟩,?_⟩
  · rw [TaskQueue.grow,h.count,hrun,ok_bind]
  · rw [hwider,length_filled]
    dsimp only
    omega
  · rw [hwider,length_filled]
    exact Nat.le_add_right _ _
  · rw [hwider]
    exact ringOf_filled
  · rw [hwider,length_filled]
    omega

theorem withRoom_ok (h : Holds queue xs) : ∃ queue', queue.withRoom = .ok queue' ∧ Holds queue' xs ∧ xs.length < queue'.slots.length := by
  have hroom := h.room
  rw [TaskQueue.withRoom,h.count]
  split_ifs with hfull
  · exact grow_ok h
  · exact ⟨queue,rfl,h,by omega⟩

theorem push_ok (h : Holds queue xs) (task : Task) :
    ∃ queue', queue.push task = .ok (xs.length + 1,queue') ∧ Holds queue' (xs ++ [task]) := by
  obtain ⟨queue',hqueue,hholds,hlt⟩ := withRoom_ok h
  have hlen : (xs ++ [task]).length = xs.length + 1 := List.length_append
  rw [TaskQueue.push,hqueue,ok_bind,hholds.count,← Ring.place_eq_mod hholds.head hlt.le,RawArray.write,put_place hholds.head hlt,ok_bind]
  refine ⟨_,rfl,⟨hlen.symm,?_,hlen.symm,?_,RingOf.written hholds.slots hholds.head hlt task⟩⟩
  · rw [List.length_set]
    exact hholds.head
  · rw [hlen,List.length_set]
    exact hlt

theorem popHeld_nil (h : Holds queue []) : queue.popHeld = .ok (none,queue) := if_pos h.count

theorem popHeld_cons (h : Holds queue (task :: xs)) : ∃ queue', queue.popHeld = .ok (some task,queue') ∧ Holds queue' xs := by
  have hhead := h.head
  have hroom := h.room
  have hcount : queue.count = xs.length + 1 := h.count
  rw [List.length_cons] at hroom
  rw [TaskQueue.popHeld,if_neg (by omega),RingOf.read_head h.slots hhead hroom,ok_bind,RawArray.clear,RawArray.put,if_pos hhead,ok_bind]
  refine ⟨_,rfl,⟨by dsimp only; omega,?_,by dsimp only; omega,?_,?_⟩⟩
  · rw [List.length_set]
    exact Nat.mod_lt _ (by omega)
  · rw [List.length_set]
    exact (Nat.le_succ _).trans hroom
  · rw [← Ring.place_eq_mod hhead (by omega)]
    exact RingOf.dropped h.slots hhead hroom

theorem takeHalf_ok (h : Holds queue xs) :
    ∃ queue', queue.takeHalf = .ok (xs.take ((xs.length + 1) / 2),queue') ∧ Holds queue' (xs.drop ((xs.length + 1) / 2)) := by
  obtain ⟨⟨moved,queue'⟩,hrun,hmoved,hholds⟩ := foldlM_range (n := (xs.length + 1) / 2)
    (f := fun (state : List Task × TaskQueue Task) _ => (do
      match ← TaskQueue.popHeld state.2 with
      | (some task,queue) => .ok (state.1 ++ [task],queue)
      | (none,queue) => .ok (state.1,queue) : Except Stop _))
    (I := fun i state => state.1 = xs.take i ∧ Holds state.2 (xs.drop i)) (b := ([],queue)) (fun i hi (moved,queue) ⟨hmoved,hholds⟩ => by
      dsimp only at hmoved hholds
      have hlt : i < xs.length := by omega
      rw [List.drop_eq_getElem_cons hlt] at hholds
      obtain ⟨queue',hpop,hholds'⟩ := popHeld_cons hholds
      refine ⟨(moved ++ [xs[i]],queue'),?_,?_,hholds'⟩
      · dsimp only
        rw [hpop,ok_bind]
      · rw [hmoved,List.take_succ_eq_append_getElem hlt]) ⟨rfl,h⟩
  dsimp only at hmoved hholds
  subst hmoved
  refine ⟨queue',?_,hholds⟩
  rw [TaskQueue.takeHalf,h.count]
  exact hrun

end Ens.Tasks.TaskRing
