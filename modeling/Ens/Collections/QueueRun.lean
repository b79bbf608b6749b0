import Ens.Collections.QueueSpec
import Mathlib.Data.Multiset.AddSub

/-! # Runs of operations on a priority queue

A queue goes through its operations as a multiset does that gives up one of its first values at a time. Nothing but the live slots holds
a value, and a read of another slot would be an error of the store.
-/
namespace Ens.Collections.QueueStore
open Loop ListStore
variable {T : Type} {order : T → T → ℤ} {q : PriorityQueue T} {xs : List T} {fuel : ℕ}

/-- A value no other one sorts before. -/
def IsFirst (order : T → T → ℤ) (values : Multiset T) (value : T) : Prop := value ∈ values ∧ ∀ other ∈ values, ¬order other value < 0

/-! ### Reads -/

/-- Everything a queue says of itself is what the multiset says, and the slots past its count hold nothing. -/
structure Agrees [BEq T] (q : PriorityQueue T) (order : T → T → ℤ) (values : Multiset T) : Prop where
  length : q.length = values.card
  isEmpty : q.isEmpty = true ↔ values = 0
  peek : (values = 0 ∧ q.peek = .error .peekEmpty) ∨ ∃ value, q.peek = .ok value ∧ IsFirst order values value
  contains : ∀ value, ∃ found, q.contains value = .ok found ∧ (found = true ↔ ∃ other ∈ values, (other == value) = true)
  walk : ∀ fuel, values.card < fuel → ∃ seen, q.walk fuel = .ok seen ∧ (seen : Multiset T) = values
  live : ∀ slot < q.count, ∃ value, q.items[slot]? = some (some value)
  cleared : ∀ slot < q.items.length, q.count ≤ slot → q.items[slot]? = some none

theorem Holds.first {value : T} (h : Holds q order (value :: xs)) (ho : TotalPreorder order) :
    IsFirst order ((value :: xs : List T) : Multiset T) value := by
  refine ⟨List.mem_cons_self,fun other hother => ?_⟩
  have hfirst := h.ordered.first (NoLater.trans ho) ho.self rfl other hother
  exact not_lt.mpr ((ho.sign value other).mp hfirst)

theorem Holds.peek (h : Holds q order xs) (ho : TotalPreorder order) :
    ((xs : Multiset T) = 0 ∧ q.peek = .error .peekEmpty) ∨ ∃ value, q.peek = .ok value ∧ IsFirst order (xs : Multiset T) value := by
  cases xs with
  | nil => exact .inl ⟨rfl,if_pos h.count⟩
  | cons value xs =>
    obtain ⟨room,rfl,-⟩ := h.eq_filled
    have hpos : 0 < (value :: xs).length := Nat.succ_pos _
    have hread : RawArray.read (filled (value :: xs) room) 0 = .ok value := read_filled hpos
    refine .inr ⟨value,?_,h.first ho⟩
    rw [PriorityQueue.peek]
    dsimp only
    rw [hread]
    rfl

theorem Holds.read (h : Holds q order xs) {i : ℕ} (hi : i < xs.length) : q.items.read i = .ok xs[i] := by
  obtain ⟨room,rfl,-⟩ := h.eq_filled
  exact read_filled hi

theorem Holds.contains [BEq T] (h : Holds q order xs) (value : T) : q.contains value = .ok (xs.any (· == value)) := by
  obtain ⟨found,hfound,rfl⟩ := foldlM_range (n := xs.length)
    (f := fun (found : Bool) index => (do if found then .ok true else .ok ((← q.items.read index) == value) : Except Stop Bool))
    (I := fun i found => found = (xs.take i).any (· == value)) (b := false)
    (fun i hi found hf => by
      rw [any_take_succ hi,← hf]
      cases found with
      | true => exact ⟨_,rfl,rfl⟩
      | false => exact ⟨_,by rw [h.read hi]; rfl,rfl⟩) rfl
  rw [PriorityQueue.contains,h.count,hfound,List.take_length]

theorem Holds.walk (h : Holds q order xs) (hfuel : xs.length < fuel) : q.walk fuel = .ok xs := by
  have hrun : ∃ r, q.walk fuel = .ok r ∧ r = xs := by
    refine loop_ok (I := fun state => state.1 = xs.take state.2 ∧ state.2 ≤ xs.length) (fun state : List T × ℕ => xs.length - state.2)
      (fun (seen,position) ⟨hseen,hle⟩ => ?_) ⟨rfl,Nat.zero_le _⟩ (by simpa using hfuel)
    dsimp only at hseen hle
    dsimp only
    rw [PriorityQueue.next,h.count]
    by_cases hend : xs.length ≤ position
    · left
      rw [if_pos hend]
      exact ⟨_,rfl,by rw [hseen,List.take_of_length_le hend]⟩
    · right
      rw [if_neg hend,h.read (not_le.mp hend)]
      exact ⟨_,rfl,⟨by rw [hseen,List.take_succ_eq_append_getElem (not_le.mp hend)],not_le.mp hend⟩,by dsimp only; omega⟩
  obtain ⟨r,hr,rfl⟩ := hrun
  exact hr

theorem Holds.agrees [BEq T] (h : Holds q order xs) (ho : TotalPreorder order) : Agrees q order (xs : Multiset T) where
  length := h.count
  isEmpty := by
    rw [PriorityQueue.isEmpty,h.count,decide_eq_true_iff,List.length_eq_zero_iff,Multiset.coe_eq_zero]
  peek := h.peek ho
  contains := fun value => ⟨_,h.contains value,by simp⟩
  walk := fun _ hfuel => ⟨xs,h.walk hfuel,rfl⟩
  live := by
    obtain ⟨room,rfl,-⟩ := h.eq_filled
    intro slot hslot
    exact ⟨xs[slot],by rw [filled,List.getElem?_append_left (by rwa [List.length_map]),List.getElem?_map,List.getElem?_eq_getElem hslot]; rfl⟩
  cleared := by
    obtain ⟨room,rfl,-⟩ := h.eq_filled
    intro slot hslot hcount
    dsimp only at hslot hcount ⊢
    rw [length_filled] at hslot
    rw [filled,List.getElem?_append_right (by rwa [List.length_map]),List.length_map,List.getElem?_replicate,if_pos (by omega)]

/-! ### Runs -/

variable [BEq T]

inductive Op (T : Type)
  | push (value : T)
  | pop
  | clear
  | copy

/-- Before and after each operation the queue and the multiset agree. A pop takes out a value no other one sorts before, a pop of an empty
queue ends the run, and so does a push into a store that doubling cannot make large enough. After a copy the run goes on with the copy. -/
def Follows (fuel : ℕ) (order : T → T → ℤ) (q : PriorityQueue T) (values : Multiset T) : List (Op T) → Prop
  | [] => Agrees q order values
  | .push value :: ops => Agrees q order values ∧ ((∃ q', q.push fuel value = .ok q' ∧ Follows fuel order q' (value ::ₘ values) ops) ∨
      q.push fuel value = .error (.store .endless) ∧ (64 ≤ fuel → ¬Fits q.items.length (q.count + 1)))
  | .pop :: ops => Agrees q order values ∧ ((values = 0 ∧ q.pop = .error .popEmpty) ∨
      ∃ value rest q', values = value ::ₘ rest ∧ IsFirst order values value ∧ q.pop = .ok (value,q') ∧ Follows fuel order q' rest ops)
  | .clear :: ops => Agrees q order values ∧ ∃ q', q.clear = .ok q' ∧ Follows fuel order q' 0 ops
  | .copy :: ops => Agrees q order values ∧ ∃ q', q.copy = .ok q' ∧ Follows fuel order q' values ops

theorem Holds.follows (h : Holds q order xs) (ho : TotalPreorder order) (fuel : ℕ) (ops : List (Op T)) :
    Follows fuel order q (xs : Multiset T) ops := by
  induction ops generalizing q xs with
  | nil => exact h.agrees ho
  | cons op ops ih =>
    cases op with
    | push value =>
      refine ⟨h.agrees ho,?_⟩
      rcases push_cases ho h fuel value with ⟨q',ys,hq,hholds,hperm⟩ | hend
      · refine .inl ⟨q',hq,?_⟩
        rw [Multiset.cons_coe,← Multiset.coe_eq_coe.mpr hperm]
        exact ih hholds
      · exact .inr hend
    | pop =>
      refine ⟨h.agrees ho,?_⟩
      cases xs with
      | nil => exact .inl ⟨rfl,if_pos h.count⟩
      | cons value xs =>
        obtain ⟨q',ys,hq,hholds,hperm⟩ := pop_ok ho h
        refine .inr ⟨value,xs,q',rfl,h.first ho,hq,?_⟩
        rw [← Multiset.coe_eq_coe.mpr hperm]
        exact ih hholds
    | clear =>
      obtain ⟨q',hq,hholds⟩ := clear_ok h
      exact ⟨h.agrees ho,q',hq,ih hholds⟩
    | copy =>
      obtain ⟨q',hq,hholds⟩ := copy_ok h
      exact ⟨h.agrees ho,q',hq,ih hholds⟩

/-- A queue follows a multiset through every run of operations, whatever total preorder its values sort by. -/
theorem follows_multiset (order : T → T → ℤ) (ho : TotalPreorder order) (ops : List (Op T)) (fuel : ℕ) :
    Follows fuel order (.new order) 0 ops := by
  have hpos : 0 < ([] : List T).length + 4 := Nat.succ_pos 3
  have hnew : Holds (.new order) order ([] : List T) := holds_filled ordered_nil hpos
  exact hnew.follows ho fuel ops

theorem follows_multiset_difference : Follows 64 (fun x y : ℤ => x - y) (.new fun x y => x - y) 0 [.push 3,.push 1,.pop,.copy,.pop,.pop] :=
  follows_multiset (fun x y : ℤ => x - y) ⟨fun a b => by omega,fun a b c => by omega⟩ [.push 3,.push 1,.pop,.copy,.pop,.pop] 64

end Ens.Collections.QueueStore
