import Ens.Collections.ListSort
import Ens.Collections.PriorityQueue
import Ens.Logic.Heap

/-! # One operation on a priority queue

The values stay in heap order. While a value is moved, its place in the store is a hole: with the value put back there the list has the
values it had, and is out of order at the hole at most.
-/
set_option linter.all false
namespace Ens.Collections.QueueStore
open Loop ListStore
variable {T : Type} {order : T → T → ℤ} {xs zs : List T} {room index hole fuel : ℕ} {value : T} {q : PriorityQueue T}

@[simp] theorem lift_ok {A : Type} (a : A) : (liftM (Except.ok a : Except ListStore.Stop A) : Except Stop A) = .ok a := rfl

/-- The first value does not sort after the second. -/
def NoLater (order : T → T → ℤ) (a b : T) : Prop := order a b ≤ 0

abbrev HeapOrdered (order : T → T → ℤ) (xs : List T) : Prop := Heap.Ordered (NoLater order) xs

theorem write_filled (hi : index < zs.length) (value : T) :
    RawArray.write (filled zs room) index value = .ok (filled (zs.set index value) room) := by
  rw [RawArray.write,RawArray.put,if_pos (by rw [length_filled]; omega),filled,List.set_append_left _ _ (by rwa [List.length_map]),
    ← List.map_set]
  rfl

/-! ### Up and down -/

/-- A store with a hole that the value goes back into. -/
def Sifting (Q : List T → ℕ → Prop) (xs : List T) (room : ℕ) (value : T) (state : RawArray T × ℕ) : Prop :=
  ∃ zs : List T, state.1 = filled zs room ∧ state.2 < zs.length ∧ (zs.set state.2 value).Perm xs ∧ Q (zs.set state.2 value) state.2

theorem Sifting.ends {items : RawArray T} (h : Sifting (fun ys _ => HeapOrdered order ys) xs room value (items,hole)) :
    ∃ ys, items.write hole value = .ok (filled ys room) ∧ ys.Perm xs ∧ HeapOrdered order ys := by
  obtain ⟨zs,hitems,hhole,hperm,hordered⟩ := h
  dsimp only at hitems hhole hperm hordered
  exact ⟨_,by rw [hitems,write_filled hhole],hperm,hordered⟩

/-- The value above or below moves into the hole, and the hole to its place. -/
theorem exchanged_set {i j : ℕ} {above : T} : Heap.exchanged (zs.set i value) i j value above = (zs.set i above).set j value := by
  rw [Heap.exchanged,List.set_set]

theorem NoLater.trans (ho : TotalPreorder order) (a b c : T) : NoLater order a b → NoLater order b c → NoLater order a c := ho.trans a b c

theorem siftUpStep_ok (ho : TotalPreorder order) {state : RawArray T × ℕ}
    (h : Sifting (Heap.OrderedUp (NoLater order)) xs room value state) :
    (∃ r, PriorityQueue.siftUpStep order value state = .ok (.done r) ∧ Sifting (fun ys _ => HeapOrdered order ys) xs room value r) ∨
    ∃ s, PriorityQueue.siftUpStep order value state = .ok (.next s) ∧ Sifting (Heap.OrderedUp (NoLater order)) xs room value s ∧
      s.2 < state.2 := by
  obtain ⟨items,hole⟩ := state
  obtain ⟨zs,hitems,hhole,hperm,hup⟩ := h
  dsimp only at hitems hhole hperm hup
  subst hitems
  rw [PriorityQueue.siftUpStep]
  by_cases hpos : 0 < hole
  · have hlt : (hole - 1) / 2 < hole := by omega
    have hread : RawArray.read (filled zs room) ((hole - 1) / 2) = .ok zs[(hole - 1) / 2] := read_filled _
    have hvalue : (zs.set hole value)[hole]? = some value := List.getElem?_set_self hhole
    have habove : (zs.set hole value)[Heap.parent hole]? = some zs[(hole - 1) / 2] := by
      rw [Heap.parent,List.getElem?_set_ne (by omega),List.getElem?_eq_getElem]
    have hsign := ho.sign zs[(hole - 1) / 2] value
    rw [if_pos hpos]
    dsimp only
    rw [hread,ok_bind]
    by_cases hstop : 0 ≤ order value zs[(hole - 1) / 2]
    · left
      rw [if_pos hstop]
      refine ⟨_,rfl,zs,rfl,hhole,hperm,hup.ordered fun a b ha hb => ?_⟩
      cases ha.symm.trans habove
      cases hb.symm.trans hvalue
      exact hsign.mpr hstop
    · right
      have hva : NoLater order value zs[(hole - 1) / 2] := (not_le.mp hstop).le
      rw [if_neg hstop,write_filled hhole,ok_bind]
      refine ⟨_,rfl,⟨zs.set hole zs[(hole - 1) / 2],rfl,by rw [List.length_set]; dsimp only; omega,?_,?_⟩,hlt⟩
      · dsimp only
        rw [← exchanged_set]
        exact (Heap.exchanged_perm hvalue habove).trans hperm
      · dsimp only
        rw [← exchanged_set]
        exact hup.step (NoLater.trans ho) hpos hvalue habove hva
  · left
    obtain rfl : hole = 0 := by omega
    exact ⟨_,if_neg hpos,zs,rfl,hhole,hperm,hup.ordered_zero⟩

theorem siftedUp_ok (room : ℕ) (ho : TotalPreorder order) (hindex : index < xs.length) (hup : Heap.OrderedUp (NoLater order) xs index) :
    ∃ ys, PriorityQueue.siftedUp order (filled xs room) index = .ok (filled ys room) ∧ ys.Perm xs ∧ HeapOrdered order ys := by
  have hread : RawArray.read (filled xs room) index = .ok xs[index] := read_filled hindex
  have hfirst : Sifting (Heap.OrderedUp (NoLater order)) xs room xs[index] (filled xs room,index) :=
    ⟨xs,rfl,hindex,by rw [List.set_getElem_self],by rwa [List.set_getElem_self]⟩
  obtain ⟨⟨items,hole⟩,hloop,hend⟩ := @loop_ok _ _ _ ListStore.Stop.endless _ _ _ _ _ (fun state : RawArray T × ℕ => state.2)
    (fun _ hI => siftUpStep_ok ho hI) hfirst (Nat.lt_succ_self index)
  rw [PriorityQueue.siftedUp,hread,ok_bind,hloop,ok_bind]
  exact hend.ends

/-- The child that is compared is one the other child does not sort before. -/
theorem smallerChild_ok (room : ℕ) (value : T) (ho : TotalPreorder order) (hchild : hole * 2 + 1 < zs.length) :
    ∃ c, PriorityQueue.smallerChild order zs.length (filled zs room) (hole * 2 + 1) = .ok c ∧ c < zs.length ∧ hole < c ∧
      Heap.Smaller (NoLater order) (zs.set hole value) hole c := by
  have hkeep : ∀ i, hole < i → (zs.set hole value)[i]? = zs[i]? := fun i hi => List.getElem?_set_ne (by omega)
  have hsmaller : ∀ c, c = hole * 2 + 1 ∨ c = hole * 2 + 2 →
      (∀ i a b, i = hole * 2 + 1 ∨ i = hole * 2 + 2 → zs[c]? = some a → zs[i]? = some b → NoLater order a b) →
      Heap.Smaller (NoLater order) (zs.set hole value) hole c := by
    intro c hc hall
    refine ⟨by omega,by rw [Heap.parent]; omega,fun i hi hparent a b ha hb => ?_⟩
    rw [Heap.parent] at hparent
    rw [hkeep _ (by omega)] at ha hb
    exact hall i a b (by omega) ha hb
  have hleft : RawArray.read (filled zs room) (hole * 2 + 1) = .ok zs[hole * 2 + 1] := read_filled hchild
  rw [PriorityQueue.smallerChild]
  split_ifs with hboth
  · have hright : RawArray.read (filled zs room) (hole * 2 + 1 + 1) = .ok zs[hole * 2 + 1 + 1] := read_filled hboth
    have hsign := ho.sign zs[hole * 2 + 1] zs[hole * 2 + 1 + 1]
    rw [hright,ok_bind,hleft,ok_bind]
    by_cases hlt : order zs[hole * 2 + 1 + 1] zs[hole * 2 + 1] < 0
    · refine ⟨_,if_pos hlt,hboth,by omega,hsmaller _ (.inr rfl) fun i a b hi ha hb => ?_⟩
      cases ha.symm.trans (List.getElem?_eq_getElem hboth)
      rcases hi with rfl | rfl
      · cases hb.symm.trans (List.getElem?_eq_getElem hchild)
        exact hlt.le
      · cases hb.symm.trans (List.getElem?_eq_getElem hboth)
        exact ho.self _
    · refine ⟨_,if_neg hlt,hchild,by omega,hsmaller _ (.inl rfl) fun i a b hi ha hb => ?_⟩
      cases ha.symm.trans (List.getElem?_eq_getElem hchild)
      rcases hi with rfl | rfl
      · cases hb.symm.trans (List.getElem?_eq_getElem hchild)
        exact ho.self _
      · cases hb.symm.trans (List.getElem?_eq_getElem hboth)
        exact hsign.mpr (not_lt.mp hlt)
  · refine ⟨_,rfl,hchild,by omega,hsmaller _ (.inl rfl) fun i a b hi ha hb => ?_⟩
    cases ha.symm.trans (List.getElem?_eq_getElem hchild)
    have hlast := (List.getElem?_eq_some_iff.mp hb).1
    obtain rfl : i = hole * 2 + 1 := by omega
    cases hb.symm.trans (List.getElem?_eq_getElem hchild)
    exact ho.self _

theorem siftDownStep_ok (ho : TotalPreorder order) {count : ℕ} (hcount : xs.length = count) {state : RawArray T × ℕ}
    (h : Sifting (Heap.OrderedDown (NoLater order)) xs room value state) :
    (∃ r, PriorityQueue.siftDownStep order count value state = .ok (.done r) ∧
      Sifting (fun ys _ => HeapOrdered order ys) xs room value r) ∨
    ∃ s, PriorityQueue.siftDownStep order count value state = .ok (.next s) ∧
      Sifting (Heap.OrderedDown (NoLater order)) xs room value s ∧ count - s.2 < count - state.2 := by
  obtain ⟨items,hole⟩ := state
  obtain ⟨zs,hitems,hhole,hperm,hdown⟩ := h
  dsimp only at hitems hhole hperm hdown
  subst hitems
  have hlen : zs.length = count := by
    rw [← hcount,← hperm.length_eq,List.length_set]
  subst hlen
  rw [PriorityQueue.siftDownStep]
  dsimp only
  by_cases hlast : zs.length ≤ hole * 2 + 1
  · left
    refine ⟨_,if_pos hlast,zs,rfl,hhole,hperm,hdown.ordered fun i hi hparent a b _ hb => ?_⟩
    have hin := (List.getElem?_eq_some_iff.mp hb).1
    rw [List.length_set] at hin
    rw [Heap.parent] at hparent
    omega
  · obtain ⟨c,hchild,hc,hlt,hsmaller⟩ := smallerChild_ok room value ho (not_le.mp hlast)
    have hread : RawArray.read (filled zs room) c = .ok zs[c] := read_filled hc
    have hvalue : (zs.set hole value)[hole]? = some value := List.getElem?_set_self hhole
    have hbelow : (zs.set hole value)[c]? = some zs[c] := by
      rw [List.getElem?_set_ne (by omega),List.getElem?_eq_getElem]
    have hsign := ho.sign value zs[c]
    rw [if_neg hlast,hchild,ok_bind,hread,ok_bind]
    by_cases hstop : 0 ≤ order zs[c] value
    · left
      rw [if_pos hstop]
      refine ⟨_,rfl,zs,rfl,hhole,hperm,hdown.ordered fun i hi hparent a b ha hb => ?_⟩
      cases ha.symm.trans hvalue
      exact NoLater.trans ho _ zs[c] b (hsign.mpr hstop) (hsmaller.above i hi hparent _ b hbelow hb)
    · right
      rw [if_neg hstop,write_filled hhole,ok_bind]
      refine ⟨_,rfl,⟨zs.set hole zs[c],rfl,by rw [List.length_set]; exact hc,?_,?_⟩,by dsimp only; omega⟩
      · dsimp only
        rw [← exchanged_set]
        exact (Heap.exchanged_perm hvalue hbelow).trans hperm
      · dsimp only
        rw [← exchanged_set]
        exact hdown.step hsmaller hvalue hbelow (not_le.mp hstop).le

theorem siftedDown_ok (room : ℕ) (ho : TotalPreorder order) (hindex : index < xs.length) (hdown : Heap.OrderedDown (NoLater order) xs index) :
    ∃ ys, PriorityQueue.siftedDown order xs.length (filled xs room) index = .ok (filled ys room) ∧ ys.Perm xs ∧ HeapOrdered order ys := by
  have hread : RawArray.read (filled xs room) index = .ok xs[index] := read_filled hindex
  have hfirst : Sifting (Heap.OrderedDown (NoLater order)) xs room xs[index] (filled xs room,index) :=
    ⟨xs,rfl,hindex,by rw [List.set_getElem_self],by rwa [List.set_getElem_self]⟩
  obtain ⟨⟨items,hole⟩,hloop,hend⟩ := @loop_ok _ _ _ ListStore.Stop.endless _ _ _ _ _ (fun state : RawArray T × ℕ => xs.length - state.2)
    (fun _ hI => siftDownStep_ok ho rfl hI) hfirst (Nat.lt_succ_of_le (Nat.sub_le _ _))
  rw [PriorityQueue.siftedDown,hread,ok_bind,hloop,ok_bind]
  exact hend.ends

/-! ### The whole queue -/

structure Holds (q : PriorityQueue T) (order : T → T → ℤ) (xs : List T) : Prop where
  sorts : q.order = order
  count : q.count = xs.length
  items : ∃ room, q.items = filled xs room
  pos : 0 < q.items.length
  ordered : HeapOrdered order xs

theorem Holds.eq_filled (h : Holds q order xs) : ∃ room, q = ⟨filled xs room,xs.length,order⟩ ∧ 0 < xs.length + room := by
  obtain ⟨room,hitems⟩ := h.items
  refine ⟨room,?_,by rw [← length_filled,← hitems]; exact h.pos⟩
  rw [← hitems,← h.count,← h.sorts]

theorem holds_filled (hordered : HeapOrdered order xs) (hpos : 0 < xs.length + room) : Holds ⟨filled xs room,xs.length,order⟩ order xs :=
  ⟨rfl,rfl,⟨room,rfl⟩,by rwa [length_filled],hordered⟩

theorem ordered_nil : HeapOrdered order [] := fun _ _ _ _ ha => by cases ha

/-- Room is made without a change to the values, or doubling the store overflows and never ends. -/
theorem reserve_cases (h : Holds q order xs) (fuel : ℕ) (capacity : ℤ) :
    (∃ q', q.reserve fuel capacity = .ok q' ∧ Holds q' order xs ∧ capacity ≤ q'.items.length) ∨
    q.reserve fuel capacity = .error (.store .endless) ∧ (64 ≤ fuel → ¬Fits q.items.length capacity) := by
  rw [PriorityQueue.reserve]
  split_ifs with hc
  · exact .inl ⟨q,rfl,h,hc⟩
  · have hlt : (q.items.length : ℤ) < capacity := not_le.mp hc
    rcases doubled_cases fuel capacity q.items.length with ⟨size,hsize,hcap⟩ | hend
    · left
      obtain ⟨room,rfl,-⟩ := h.eq_filled
      obtain ⟨size,rfl⟩ := Int.eq_ofNat_of_zero_le (show 0 ≤ size by omega)
      rw [length_filled] at hlt
      rw [hsize,lift_ok,ok_bind,RawArray.allocate,Int.toNat_natCast,copied_ok (by omega),lift_ok,ok_bind]
      refine ⟨_,rfl,holds_filled h.ordered (by omega),?_⟩
      rw [length_filled]
      omega
    · right
      refine ⟨by rw [hend]; rfl,fun hfuel hfit => ?_⟩
      have hbound := hfit 0 (by simpa using hlt)
      obtain ⟨j,hdoubled,-⟩ := doubled_ok h.pos (by omega) hfit hfuel
      cases hend.symm.trans hdoubled

theorem push_cases (ho : TotalPreorder order) (h : Holds q order xs) (fuel : ℕ) (value : T) :
    (∃ q' ys, q.push fuel value = .ok q' ∧ Holds q' order ys ∧ ys.Perm (value :: xs)) ∨
    q.push fuel value = .error (.store .endless) ∧ (64 ≤ fuel → ¬Fits q.items.length (q.count + 1)) := by
  rw [PriorityQueue.push]
  rcases reserve_cases h fuel (q.count + 1) with ⟨q',hreserve,hholds,hcap⟩ | ⟨hend,hfit⟩
  · left
    have hcount := h.count
    obtain ⟨room,rfl,-⟩ := hholds.eq_filled
    rw [length_filled] at hcap
    obtain ⟨room,rfl⟩ : ∃ n, room = n + 1 := ⟨room - 1,by omega⟩
    have hlast : xs.length < (xs ++ [value]).length := by
      rw [List.length_append]
      exact Nat.lt_succ_self _
    obtain ⟨ys,hsift,hperm,hordered⟩ := siftedUp_ok room ho hlast (h.ordered.append value)
    have hlen : ys.length = xs.length + 1 := by
      rw [hperm.length_eq,List.length_append]
      rfl
    refine ⟨⟨filled ys room,ys.length,order⟩,ys,?_,holds_filled hordered (by omega),hperm.trans (List.perm_append_singleton value xs)⟩
    rw [hreserve,ok_bind]
    dsimp only
    rw [filled_succ,RawArray.write_middle (List.length_map _),← filled_concat,lift_ok,ok_bind,PriorityQueue.siftUp,hsift,lift_ok,ok_bind,hlen]
  · exact .inr ⟨by rw [hend]; rfl,hfit⟩

/-- The last value goes to the first place, and down from there. -/
theorem pop_ok (ho : TotalPreorder order) (h : Holds q order (value :: xs)) :
    ∃ q' ys, q.pop = .ok (value,q') ∧ Holds q' order ys ∧ ys.Perm xs := by
  obtain ⟨room,rfl,-⟩ := h.eq_filled
  have hpos : 0 < (value :: xs).length := Nat.succ_pos _
  have hfirst : RawArray.read (filled (value :: xs) room) 0 = .ok value := read_filled hpos
  rw [PriorityQueue.pop]
  dsimp only
  rw [List.length_cons,if_neg (Nat.succ_ne_zero _),hfirst,lift_ok,ok_bind,Nat.add_sub_cancel]
  rcases List.eq_nil_or_concat xs with rfl | ⟨zs,last,hxs⟩
  · have hclear : RawArray.clear (filled [value] room) 0 = .ok (filled [] (room + 1)) := rfl
    rw [List.length_nil,hfirst,lift_ok,ok_bind,hclear,lift_ok,ok_bind]
    exact ⟨_,[],rfl,holds_filled ordered_nil (by omega),.refl _⟩
  · rw [List.concat_eq_append] at hxs
    subst hxs
    have hlast : RawArray.read (filled (value :: (zs ++ [last])) room) (zs ++ [last]).length = .ok last := by
      have hlt : (zs ++ [last]).length < (value :: (zs ++ [last])).length := Nat.lt_succ_self _
      have hread : RawArray.read (filled (value :: (zs ++ [last])) room) (zs ++ [last]).length = .ok _ := read_filled hlt
      rw [hread]
      simp
    have hclear : RawArray.clear (filled (value :: (zs ++ [last])) room) (zs ++ [last]).length = .ok (filled (value :: zs) (room + 1)) := by
      rw [← List.cons_append,filled_concat,RawArray.clear_middle (by rw [List.length_map]; simp),filled_succ]
    have hzs : 0 < (value :: zs).length := Nat.succ_pos _
    have hwrite : RawArray.write (filled (value :: zs) (room + 1)) 0 last = .ok (filled (last :: zs) (room + 1)) := write_filled hzs last
    obtain ⟨ys,hsift,hperm,hordered⟩ := siftedDown_ok (room + 1) ho (Nat.succ_pos _) h.ordered.replace
    have hlen : ys.length = (zs ++ [last]).length := by
      rw [hperm.length_eq,List.length_append]
      rfl
    refine ⟨⟨filled ys (room + 1),ys.length,order⟩,ys,?_,holds_filled hordered (by omega),?_⟩
    · rw [hlast,lift_ok,ok_bind,hclear,lift_ok,ok_bind,if_pos (by rw [List.length_append]; exact Nat.succ_pos _),hwrite,lift_ok,ok_bind,
        PriorityQueue.siftDown]
      dsimp only
      rw [show (zs ++ [last]).length = (last :: zs).length from List.length_append,hsift,lift_ok,ok_bind,ok_bind,hperm.length_eq]
    · exact hperm.trans (List.perm_append_singleton last zs).symm

theorem clear_ok (h : Holds q order xs) : ∃ q', q.clear = .ok q' ∧ Holds q' order [] := by
  obtain ⟨room,rfl,hpos⟩ := h.eq_filled
  obtain ⟨items,hitems,rfl⟩ := foldlM_range (n := xs.length)
    (f := fun (items : RawArray T) index => (items.clear index : Except Stop (RawArray T)))
    (I := fun k items => items = List.replicate k none ++ ((xs.drop k).map some ++ List.replicate room none)) (b := filled xs room)
    (fun k hk items hI => by
      refine ⟨_,?_,rfl⟩
      rw [hI,List.drop_eq_getElem_cons hk,List.map_cons,List.cons_append,RawArray.clear_middle List.length_replicate,lift_ok,
        List.replicate_succ',List.append_assoc]
      rfl) rfl
  refine ⟨⟨filled [] (xs.length + room),0,order⟩,?_,holds_filled ordered_nil (by rw [List.length_nil]; omega)⟩
  have hjoin : List.replicate xs.length none ++ (([] : List T).map some ++ List.replicate room none) = filled [] (xs.length + room) := by
    rw [filled,List.map_nil,List.nil_append,List.nil_append,List.replicate_append_replicate]
  rw [PriorityQueue.clear,hitems,ok_bind,List.drop_length,hjoin]

theorem copy_ok (h : Holds q order xs) : ∃ q', q.copy = .ok q' ∧ Holds q' order xs := by
  obtain ⟨room,rfl,-⟩ := h.eq_filled
  have hroom : xs.length ≤ (if (xs.length : ℤ) < 1 then 1 else (xs.length : ℤ)).toNat := by split_ifs <;> omega
  rw [PriorityQueue.copy,PriorityQueue.withCapacity,RawArray.allocate]
  dsimp only
  rw [copied_ok hroom,lift_ok,ok_bind]
  exact ⟨_,rfl,holds_filled h.ordered (by split_ifs at hroom ⊢ <;> omega)⟩

end Ens.Collections.QueueStore
