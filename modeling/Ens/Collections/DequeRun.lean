import Ens.Collections.Deque

/-! # Runs of operations on a deque

A deque goes through its operations as a sequence does, wherever its ring wraps. The one thing that can stop it is a capacity that
doubling the store cannot reach within a long.
-/
namespace Ens.Collections.DequeStore
open Loop ListStore
variable {T : Type} {d : Deque T} {xs : List T} {fuel : ℕ}

/-! ### Reads -/

/-- Everything a deque says of itself is what the sequence says, and the slots none of its values is in hold nothing. -/
structure Agrees [BEq T] (d : Deque T) (xs : List T) : Prop where
  length : d.length = xs.length
  isEmpty : d.isEmpty = xs.isEmpty
  get : ∀ index : ℤ, d.get index =
    if h : 0 ≤ index ∧ index.toNat < xs.length then .ok xs[index.toNat] else .error (.getOutside index xs.length)
  first : d.first = match xs.head? with | some value => .ok value | none => .error .firstEmpty
  last : d.last = match xs.getLast? with | some value => .ok value | none => .error .lastEmpty
  contains : ∀ value, d.contains value = .ok (xs.any (· == value))
  toArray : d.toArray = .ok (xs.map some)
  walk : ∀ fuel, xs.length < fuel → d.walk fuel = .ok xs
  inside : ∀ index ≤ d.items.length, d.slotOf index < d.items.length
  cleared : ∀ slot < d.items.length, (∀ index < d.count, d.slotOf index ≠ slot) → d.items[slot]? = some none

theorem Holds.get (h : Holds d xs) (index : ℤ) : d.get index =
    if h : 0 ≤ index ∧ index.toNat < xs.length then .ok xs[index.toNat] else .error (.getOutside index xs.length) := by
  rw [Deque.get,h.count]
  by_cases hin : 0 ≤ index ∧ index.toNat < xs.length
  · rw [if_neg (by omega),dif_pos hin,h.read hin.2]
    rfl
  · rw [if_pos (by omega),dif_neg hin]

theorem Holds.first (h : Holds d xs) :
    d.first = match xs.head? with | some value => .ok value | none => .error .firstEmpty := by
  rw [Deque.first,h.count]
  cases xs with
  | nil => rfl
  | cons value xs =>
    have hread := h.read (i := 0) (Nat.succ_pos _)
    rw [show d.slotOf 0 = d.head from Ring.place_zero h.head] at hread
    rw [hread]
    rfl

theorem Holds.last (h : Holds d xs) :
    d.last = match xs.getLast? with | some value => .ok value | none => .error .lastEmpty := by
  rw [Deque.last,h.count]
  rcases List.eq_nil_or_concat xs with rfl | ⟨ys,y,hxs⟩
  · rfl
  · rw [List.concat_eq_append] at hxs
    subst hxs
    have hread := h.read (i := ys.length) (by rw [List.length_append]; exact Nat.lt_succ_self _)
    rw [List.getElem_concat_length rfl] at hread
    rw [List.getLast?_concat,List.length_append,List.length_singleton,if_neg (Nat.succ_ne_zero _),Nat.add_sub_cancel,hread]
    rfl

theorem Holds.contains [BEq T] (h : Holds d xs) (value : T) : d.contains value = .ok (xs.any (· == value)) := by
  obtain ⟨found,hfound,rfl⟩ := foldlM_range (n := xs.length)
    (f := fun (found : Bool) index => (do
      if found then .ok true else .ok ((← d.items.read (d.slotOf index)) == value) : Except Stop Bool))
    (I := fun i found => found = (xs.take i).any (· == value)) (b := false)
    (fun i hi found hf => by
      rw [any_take_succ hi,← hf]
      cases found with
      | true => exact ⟨_,rfl,rfl⟩
      | false => exact ⟨_,by rw [h.read hi]; rfl,rfl⟩) rfl
  rw [Deque.contains,h.count,hfound,List.take_length]

theorem Holds.toArray (h : Holds d xs) : d.toArray = .ok (xs.map some) := by
  rw [Deque.toArray,h.count,RawArray.allocate,Int.toNat_natCast,copiedInto_ok h le_rfl,Nat.sub_self,filled,List.replicate_zero,List.append_nil]

theorem Holds.walk (h : Holds d xs) (hfuel : xs.length < fuel) : d.walk fuel = .ok xs := by
  have hrun : ∃ r, d.walk fuel = .ok r ∧ r = xs := by
    refine loop_ok (I := fun state => state.1 = xs.take state.2 ∧ state.2 ≤ xs.length) (fun state : List T × ℕ => xs.length - state.2)
      (fun (seen,position) ⟨hseen,hle⟩ => ?_) ⟨rfl,Nat.zero_le _⟩ (by simpa using hfuel)
    dsimp only at hseen hle
    dsimp only
    rw [Deque.next,h.count]
    by_cases hend : xs.length ≤ position
    · left
      rw [if_pos hend]
      exact ⟨_,rfl,by rw [hseen,List.take_of_length_le hend]⟩
    · right
      rw [if_neg hend,h.read (not_le.mp hend)]
      exact ⟨_,rfl,⟨by rw [hseen,List.take_succ_eq_append_getElem (not_le.mp hend)],not_le.mp hend⟩,by dsimp only; omega⟩
  obtain ⟨r,hr,rfl⟩ := hrun
  exact hr

theorem Holds.cleared (h : Holds d xs) {slot : ℕ} (hslot : slot < d.items.length) (hfree : ∀ index < d.count, d.slotOf index ≠ slot) :
    d.items[slot]? = some none := by
  obtain ⟨i,hi,rfl⟩ := Ring.exists_place h.head hslot
  rw [h.slots i hi]
  refine congrArg some (List.getElem?_eq_none ?_)
  by_contra hlt
  exact hfree i (by rw [h.count]; exact not_le.mp hlt) rfl

theorem Holds.agrees [BEq T] (h : Holds d xs) : Agrees d xs where
  length := h.count
  isEmpty := by
    rw [Deque.isEmpty,h.count]
    cases xs <;> rfl
  get := h.get
  first := h.first
  last := h.last
  contains := h.contains
  toArray := h.toArray
  walk := fun _ hfuel => h.walk hfuel
  inside := fun _ hle => Ring.place_lt h.head hle
  cleared := fun _ hslot hfree => h.cleared hslot hfree

/-! ### Operations -/

inductive Maker
  | new
  | withCapacity (capacity : ℤ)

def Maker.made : Maker → Deque T
  | new => .new
  | withCapacity capacity => .withCapacity capacity

inductive Op (T : Type)
  | pushFront (value : T)
  | pushBack (value : T)
  | popFront
  | popBack
  | reserve (capacity : ℤ)
  | clear
  | copy

def Deque.perform (fuel : ℕ) (d : Deque T) : Op T → Except Stop (Option T × Deque T)
  | .pushFront value => do .ok (none,← d.pushFront fuel value)
  | .pushBack value => do .ok (none,← d.pushBack fuel value)
  | .popFront => do
    let (value,d) ← d.popFront
    .ok (some value,d)
  | .popBack => do
    let (value,d) ← d.popBack
    .ok (some value,d)
  | .reserve capacity => do .ok (none,← d.reserve fuel capacity)
  | .clear => do .ok (none,← d.clear)
  | .copy => do .ok (none,← d.copy)

def Op.onSequence (xs : List T) : Op T → Except Stop (Option T × List T)
  | pushFront value => .ok (none,value :: xs)
  | pushBack value => .ok (none,xs ++ [value])
  | popFront =>
    match xs with
    | [] => .error .popFrontEmpty
    | value :: rest => .ok (some value,rest)
  | popBack =>
    match xs.getLast? with
    | none => .error .popBackEmpty
    | some value => .ok (some value,xs.dropLast)
  | reserve _ => .ok (none,xs)
  | clear => .ok (none,[])
  | copy => .ok (none,xs)

def Op.capacity (d : Deque T) : Op T → ℤ
  | pushFront _ | pushBack _ => d.count + 1
  | reserve capacity => capacity
  | _ => 0

theorem perform_cases (h : Holds d xs) (fuel : ℕ) (op : Op T) :
    match op.onSequence xs with
    | .error stop => d.perform fuel op = .error stop
    | .ok (result,ys) => (∃ d', d.perform fuel op = .ok (result,d') ∧ Holds d' ys) ∨
      d.perform fuel op = .error (.store .endless) ∧ (64 ≤ fuel → ¬Fits d.items.length (op.capacity d)) := by
  have hcount := h.count
  cases op with
  | pushFront value =>
    rcases pushFront_cases h fuel value with ⟨d',hd,hholds⟩ | ⟨hend,hfit⟩
    · exact .inl ⟨d',by rw [Deque.perform,hd]; rfl,hholds⟩
    · exact .inr ⟨by rw [Deque.perform,hend]; rfl,hfit⟩
  | pushBack value =>
    rcases pushBack_cases h fuel value with ⟨d',hd,hholds⟩ | ⟨hend,hfit⟩
    · exact .inl ⟨d',by rw [Deque.perform,hd]; rfl,hholds⟩
    · exact .inr ⟨by rw [Deque.perform,hend]; rfl,hfit⟩
  | popFront =>
    cases xs with
    | nil =>
      have hzero : d.count = 0 := hcount
      dsimp only [Op.onSequence]
      rw [Deque.perform,Deque.popFront,if_pos hzero]
      rfl
    | cons value xs =>
      obtain ⟨d',hd,hholds⟩ := popFront_ok h
      exact .inl ⟨d',by rw [Deque.perform,hd]; rfl,hholds⟩
  | popBack =>
    rw [Op.onSequence]
    rcases List.eq_nil_or_concat xs with rfl | ⟨ys,y,hxs⟩
    · have hzero : d.count = 0 := hcount
      dsimp only [List.getLast?_nil]
      rw [Deque.perform,Deque.popBack,if_pos hzero]
      rfl
    · rw [List.concat_eq_append] at hxs
      subst hxs
      obtain ⟨d',hd,hholds⟩ := popBack_ok h
      rw [List.getLast?_concat,List.dropLast_concat]
      exact .inl ⟨d',by rw [Deque.perform,hd]; rfl,hholds⟩
  | reserve capacity =>
    rcases reserve_cases h fuel capacity with ⟨d',hd,hholds,-⟩ | ⟨hend,hfit⟩
    · exact .inl ⟨d',by rw [Deque.perform,hd]; rfl,hholds⟩
    · exact .inr ⟨by rw [Deque.perform,hend]; rfl,hfit⟩
  | clear =>
    obtain ⟨d',hd,hholds⟩ := clear_ok h
    exact .inl ⟨d',by rw [Deque.perform,hd]; rfl,hholds⟩
  | copy =>
    obtain ⟨d',hd,hholds⟩ := copy_ok h
    exact .inl ⟨d',by rw [Deque.perform,hd]; rfl,hholds⟩

/-! ### Runs -/

variable [BEq T]

/-- Each operation gives what it gives on the sequence, a panic ends the run, and so does a store that doubling cannot make large
enough: before and after each operation the deque and the sequence agree. -/
def Follows (fuel : ℕ) (d : Deque T) (xs : List T) : List (Op T) → Prop
  | [] => Agrees d xs
  | op :: ops => Agrees d xs ∧
    match op.onSequence xs with
    | .error stop => d.perform fuel op = .error stop
    | .ok (result,ys) => (∃ d', d.perform fuel op = .ok (result,d') ∧ Follows fuel d' ys ops) ∨
      d.perform fuel op = .error (.store .endless) ∧ (64 ≤ fuel → ¬Fits d.items.length (op.capacity d))

theorem Holds.follows (h : Holds d xs) (fuel : ℕ) (ops : List (Op T)) : Follows fuel d xs ops := by
  induction ops generalizing d xs with
  | nil => exact h.agrees
  | cons op ops ih =>
    have hstep := perform_cases h fuel op
    refine ⟨h.agrees,?_⟩
    cases hs : op.onSequence xs with
    | error stop =>
      rw [hs] at hstep
      exact hstep
    | ok next =>
      rw [hs] at hstep
      rcases hstep with ⟨d',hd,hholds⟩ | hend
      · exact .inl ⟨d',hd,ih hholds⟩
      · exact .inr hend

omit [BEq T] in
theorem Maker.made_holds (maker : Maker) : Holds (maker.made : Deque T) [] := by
  cases maker with
  | new =>
    have hpos : 0 < ([] : List T).length + 4 := Nat.succ_pos 3
    exact holds_filled hpos
  | withCapacity capacity => exact withCapacity_holds capacity

-- in a ring of one slot the head steps onto itself
example : ((Deque.withCapacity 0 : Deque ℕ).pushFront 64 7).bind Deque.popFront = .ok (7,⟨[none],0,0⟩) := rfl

end Ens.Collections.DequeStore
