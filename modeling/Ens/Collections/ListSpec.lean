import Ens.Collections.ListStore
import Mathlib.Data.List.Induction

/-! # One operation on a list

An operation does to the values what it does to a sequence, and leaves every slot past them empty. It ends if the store holds a slot at
all where room is asked for, and if a list is not pushed onto itself.
-/
set_option linter.all false
namespace Ens.Collections.ListStore
open Loop
variable {T : Type} {pre post : RawArray T} {slot : Option T} {value : T} {xs ys : List T} {l : EnsList T} {i n fuel : ℕ} {capacity : ℤ}

/-! ### Slots between others -/

namespace RawArray

theorem read_middle (h : pre.length = i) : read (pre ++ some value :: post) i = .ok value := by
  rw [read,List.getElem?_append_right (Nat.le_of_eq h),h,Nat.sub_self]
  rfl

theorem put_middle (h : pre.length = i) {slot' : Option T} : put (pre ++ slot :: post) i slot' = .ok (pre ++ slot' :: post) := by
  have hlt : i < (pre ++ slot :: post).length := by
    rw [List.length_append,List.length_cons]
    omega
  rw [put,if_pos hlt,List.set_append_right _ _ (Nat.le_of_eq h),h,Nat.sub_self,List.set_cons_zero]

theorem write_middle (h : pre.length = i) : write (pre ++ slot :: post) i value = .ok (pre ++ some value :: post) := put_middle h

theorem clear_middle (h : pre.length = i) : clear (pre ++ slot :: post) i = .ok (pre ++ none :: post) := put_middle h

end RawArray

def filled (xs : List T) (n : ℕ) : RawArray T := xs.map some ++ List.replicate n none

theorem length_filled : (filled xs n).length = xs.length + n := by
  rw [filled,List.length_append,List.length_map,List.length_replicate]

theorem filled_succ : filled xs (n + 1) = xs.map some ++ none :: List.replicate n none := by
  rw [filled,List.replicate_succ]

theorem filled_concat : filled (xs ++ [value]) n = xs.map some ++ some value :: List.replicate n none := by
  rw [filled,List.map_append,List.append_assoc]
  rfl

theorem map_split (hi : i < xs.length) : xs.map some = (xs.take i).map some ++ some xs[i] :: (xs.drop (i + 1)).map some := by
  conv_lhs => rw [← List.take_append_drop i xs,List.drop_eq_getElem_cons hi,List.map_append,List.map_cons]

theorem length_map_take (hi : i ≤ xs.length) : ((xs.take i).map (some : T → Option T)).length = i := by
  rw [List.length_map,List.length_take,Nat.min_eq_left hi]

theorem read_filled (hi : i < xs.length) : RawArray.read (xs.map some ++ post) i = .ok xs[i] := by
  rw [map_split hi,List.append_assoc,List.cons_append]
  exact RawArray.read_middle (length_map_take hi.le)

/-- Whether one of the first values passes a test, one value further. -/
theorem any_take_succ {test : T → Bool} {i : ℕ} (hi : i < xs.length) : (xs.take (i + 1)).any test = ((xs.take i).any test || test xs[i]) := by
  rw [List.take_succ_eq_append_getElem hi,List.any_append,List.any_cons,List.any_nil,Bool.or_false]

structure Holds (l : EnsList T) (xs : List T) : Prop where
  count : l.count = xs.length
  items : ∃ room, l.items = filled xs room
  length : l.items.length < 2 ^ 63

theorem Holds.room (h : Holds l xs) : ∃ room, l = ⟨filled xs room,xs.length⟩ ∧ xs.length + room < 2 ^ 63 := by
  obtain ⟨room,hroom⟩ := h.items
  refine ⟨room,?_,?_⟩
  · rw [← hroom,← h.count]
  · rw [← length_filled,← hroom]
    exact h.length

theorem Holds.count_le (h : Holds l xs) : l.count ≤ l.items.length := by
  obtain ⟨n,hn⟩ := h.items
  rw [h.count,hn,length_filled]
  omega

theorem holds_filled (h : xs.length + n < 2 ^ 63) : Holds ⟨filled xs n,xs.length⟩ xs :=
  ⟨rfl,⟨n,rfl⟩,by rw [length_filled]; exact h⟩

/-! ### Making room -/

/-- No doubling of the store's size on the way to this capacity overflows a long. -/
def Fits (size : ℕ) (capacity : ℤ) : Prop := ∀ k, ((size * 2 ^ k : ℕ) : ℤ) < capacity → size * 2 ^ (k + 1) < 2 ^ 63

/-- Room for this capacity is there, or can be had by doubling. -/
def HasRoom (size : ℕ) (capacity : ℤ) : Prop := size < capacity → 0 < size

theorem lt_of_doubled {size j : ℕ} (hpos : 0 < size) (h : size * 2 ^ j < 2 ^ 63) : j < 63 :=
  (Nat.pow_lt_pow_iff_right (by omega)).mp (Nat.lt_of_le_of_lt (Nat.le_mul_of_pos_left _ hpos) h)

theorem doubled_ok {size : ℕ} (hpos : 0 < size) (hsize : size < 2 ^ 63) (hfit : Fits size capacity) (hfuel : 64 ≤ fuel) :
    ∃ j, EnsList.doubled fuel capacity size = .ok ((size * 2 ^ j : ℕ) : ℤ) ∧ capacity ≤ ((size * 2 ^ j : ℕ) : ℤ) ∧ size * 2 ^ j < 2 ^ 63 := by
  let Within (n : ℕ) (s : ℤ) : Prop := ∃ j, s = ((size * 2 ^ j : ℕ) : ℤ) ∧ j + n = 63 ∧ size * 2 ^ j < 2 ^ 63
  let Enough (r : ℤ) : Prop := ∃ j, r = ((size * 2 ^ j : ℕ) : ℤ) ∧ capacity ≤ ((size * 2 ^ j : ℕ) : ℤ) ∧ size * 2 ^ j < 2 ^ 63
  let body (s : ℤ) : Except Stop (Loop.Flow ℤ ℤ) := .ok (if s < capacity then .next (Long.wrap (s * 2)) else .done s)
  have hbody : ∀ n s, Within n s → (∃ r, body s = .ok (.done r) ∧ Enough r) ∨
      ∃ s' m, body s = .ok (.next s') ∧ Within m s' ∧ m < n := by
    rintro n s ⟨j,rfl,hj,hlt⟩
    by_cases hc : ((size * 2 ^ j : ℕ) : ℤ) < capacity
    · right
      have hnext := hfit j hc
      have hdouble : ((size * 2 ^ j : ℕ) : ℤ) * 2 = ((size * 2 ^ (j + 1) : ℕ) : ℤ) := by rw [Nat.pow_succ,← Nat.mul_assoc,Nat.cast_mul _ 2]; rfl
      have hwrap : Long.wrap (((size * 2 ^ j : ℕ) : ℤ) * 2) = ((size * 2 ^ (j + 1) : ℕ) : ℤ) := by
        rw [hdouble]
        exact Long.wrap_eq ⟨by omega,by omega⟩
      have hshort := lt_of_doubled hpos hnext
      exact ⟨_,n - 1,congrArg Except.ok ((if_pos hc).trans (congrArg Loop.Flow.next hwrap)),⟨j + 1,rfl,by omega,hnext⟩,by omega⟩
    · left
      exact ⟨_,congrArg Except.ok (if_neg hc),j,rfl,not_lt.mp hc,hlt⟩
  have hrun : ∃ r, EnsList.doubled fuel capacity size = .ok r ∧ Enough r :=
    loop_within hbody (n := 63) ⟨0,by simp,rfl,by omega⟩ (by omega)
  obtain ⟨r,hr,j,rfl,hcap,hlt⟩ := hrun
  exact ⟨j,hr,hcap,hlt⟩

/-- Doubling that ends has made enough room, and nothing else stops it. -/
theorem doubled_cases (fuel : ℕ) (capacity size : ℤ) :
    (∃ r, EnsList.doubled fuel capacity size = .ok r ∧ capacity ≤ r) ∨ EnsList.doubled fuel capacity size = .error .endless := by
  cases hd : EnsList.doubled fuel capacity size with
  | ok r =>
    refine .inl ⟨r,rfl,loop_post (Q := fun r => capacity ≤ r) (fun s r hs => ?_) hd⟩
    by_cases hlt : s < capacity
    · rw [if_pos hlt] at hs
      cases hs
    · rw [if_neg hlt] at hs
      cases hs
      exact not_lt.mp hlt
  | error e => exact .inr (congrArg Except.error (loop_error (fun s => ⟨_,rfl⟩) hd))

theorem copied_ok {m : ℕ} (hm : xs.length ≤ m) :
    EnsList.copied (filled xs n) xs.length (List.replicate m none) = .ok (filled xs (m - xs.length)) := by
  obtain ⟨grown,hgrown,rfl⟩ := foldlM_range (n := xs.length) (f := fun grown i => do RawArray.write grown i (← (filled xs n).read i))
    (I := fun i grown => grown = filled (xs.take i) (m - i)) (b := List.replicate m none)
    (fun i hi grown hg => by
      have hread : (filled xs n).read i = .ok xs[i] := read_filled hi
      have hwrite : RawArray.write grown i xs[i] = .ok (filled (xs.take (i + 1)) (m - (i + 1))) := by
        rw [hg,show m - i = m - (i + 1) + 1 by omega,filled_succ,RawArray.write_middle (length_map_take hi.le),
          List.take_succ_eq_append_getElem hi,filled_concat]
      exact ⟨_,by rw [hread,ok_bind,hwrite],rfl⟩) (by simp [filled])
  rw [EnsList.copied,hgrown,List.take_length]

/-- Room is made without a change to the values, by doubling the store. -/
theorem reserve_ok (h : Holds l xs) (hfit : Fits l.items.length capacity) (hroom : HasRoom l.items.length capacity) (hfuel : 64 ≤ fuel) :
    ∃ l', l.reserve fuel capacity = .ok l' ∧ Holds l' xs ∧ capacity ≤ l'.items.length ∧ ∃ j, l'.items.length = l.items.length * 2 ^ j := by
  rw [EnsList.reserve]
  split_ifs with hc
  · exact ⟨l,rfl,h,hc,0,by simp⟩
  · have hlt : (l.items.length : ℤ) < capacity := not_le.mp hc
    obtain ⟨j,hdoubled,hcap,hbound⟩ := doubled_ok (hroom hlt) h.length hfit hfuel
    obtain ⟨n,rfl,hn⟩ := h.room
    have hcount : xs.length ≤ (filled xs n).length * 2 ^ j := by
      rw [length_filled] at hlt hcap ⊢
      omega
    rw [hdoubled,ok_bind,RawArray.allocate,Int.toNat_natCast,copied_ok hcount,ok_bind]
    have hsize : xs.length + ((filled xs n).length * 2 ^ j - xs.length) = (filled xs n).length * 2 ^ j := by omega
    have hbound : (filled xs n).length * 2 ^ j < 2 ^ 63 := hbound
    refine ⟨_,rfl,holds_filled (by omega),?_,j,?_⟩
    · rw [length_filled,hsize]
      exact hcap
    · rw [length_filled,hsize]

theorem Fits.mono {size : ℕ} {capacity' : ℤ} (h : Fits size capacity) (hle : capacity' ≤ capacity) : Fits size capacity' := fun k hk =>
  h k (lt_of_lt_of_le hk hle)

theorem HasRoom.mono {size : ℕ} {capacity' : ℤ} (h : HasRoom size capacity) (hle : capacity' ≤ capacity) : HasRoom size capacity' :=
  fun hlt => h (lt_of_lt_of_le hlt hle)

theorem Fits.doubled {size j : ℕ} (h : Fits size capacity) : Fits (size * 2 ^ j) capacity := fun k hk => by
  rw [Nat.mul_assoc,← Nat.pow_add] at hk ⊢
  exact h (j + k) hk

theorem HasRoom.doubled {size j : ℕ} (h : HasRoom size capacity) (hs : size ≤ size * 2 ^ j) : HasRoom (size * 2 ^ j) capacity := fun hlt =>
  Nat.lt_of_lt_of_le (h (lt_of_le_of_lt (Int.ofNat_le.mpr hs) hlt)) hs

theorem wrap_next (h : Holds l xs) (hfit : Fits l.items.length (l.count + 1)) : Long.wrap (l.count + 1) = l.count + 1 := by
  have hlen := h.length
  have hcount := h.count_le
  refine Long.wrap_eq ⟨by omega,?_⟩
  by_cases hlt : (l.items.length : ℤ) < l.count + 1
  · have hnext := hfit 0 (by simpa using hlt)
    rw [Nat.zero_add,Nat.pow_one] at hnext
    omega
  · omega

theorem push_ok (h : Holds l xs) (hfit : Fits l.items.length (l.count + 1)) (hroom : HasRoom l.items.length (l.count + 1))
    (hfuel : 64 ≤ fuel) (value : T) :
    ∃ l', l.push fuel value = .ok l' ∧ Holds l' (xs ++ [value]) ∧ ∃ j, l'.items.length = l.items.length * 2 ^ j := by
  obtain ⟨l',hl,hholds,hcap,j,hj⟩ := reserve_ok h hfit hroom hfuel
  have hcount := h.count
  obtain ⟨n,rfl,hn⟩ := hholds.room
  rw [length_filled] at hcap hj
  obtain ⟨n,rfl⟩ : ∃ n', n = n' + 1 := ⟨n - 1,by omega⟩
  refine ⟨⟨filled (xs ++ [value]) n,xs.length + 1⟩,?_,?_,j,?_⟩
  · rw [EnsList.push,wrap_next h hfit,hl,ok_bind]
    dsimp only
    rw [filled_succ,RawArray.write_middle (List.length_map _),ok_bind,filled_concat]
  · have hlen : (xs ++ [value]).length = xs.length + 1 := List.length_append
    rw [← hlen]
    exact holds_filled (by omega)
  · rw [length_filled,List.length_append,List.length_singleton,← hj]
    omega

theorem pushAll_ok (h : Holds l xs) (hfit : Fits l.items.length (l.count + ys.length))
    (hroom : HasRoom l.items.length (l.count + ys.length)) (hfuel : 64 ≤ fuel) :
    ∃ l', l.pushAll fuel ys = .ok l' ∧ Holds l' (xs ++ ys) := by
  induction ys generalizing l xs with
  | nil => exact ⟨l,rfl,by rwa [List.append_nil]⟩
  | cons y ys ih =>
    rw [List.length_cons] at hfit hroom
    have hle : (l.count + 1 : ℤ) ≤ l.count + (ys.length + 1 : ℕ) := by omega
    obtain ⟨l',hl,hholds,j,hj⟩ := push_ok h (hfit.mono hle) (hroom.mono hle) hfuel y
    have hcount : (l'.count + ys.length : ℤ) = l.count + (ys.length + 1 : ℕ) := by
      rw [hholds.count,h.count,List.length_append,List.length_singleton]
      omega
    have hgrown : l.items.length ≤ l.items.length * 2 ^ j := Nat.le_mul_of_pos_right _ (Nat.two_pow_pos j)
    obtain ⟨l'',hl',hholds'⟩ := ih hholds (by rw [hj,hcount]; exact hfit.doubled) (by rw [hj,hcount]; exact hroom.doubled hgrown)
    refine ⟨l'',?_,?_⟩
    · rw [EnsList.pushAll,List.foldlM_cons,hl]
      exact hl'
    · rwa [List.append_assoc] at hholds'

theorem push_count {l' : EnsList T} (h : l.push fuel value = .ok l') : l'.count = l.count + 1 := by
  obtain ⟨grown,hgrown,h⟩ := bind_ok h
  obtain ⟨items,-,h⟩ := bind_ok h
  cases h
  rw [EnsList.reserve] at hgrown
  split_ifs at hgrown
  · cases hgrown
    rfl
  · obtain ⟨size,-,hgrown⟩ := bind_ok hgrown
    obtain ⟨copy,-,hgrown⟩ := bind_ok hgrown
    cases hgrown
    rfl

/-- Every round pushes one value, so the position never comes to the end. -/
theorem pushRounds_endless (rounds : ℕ) (l : EnsList T) (position : ℕ) (hlt : position < l.count) (l' : EnsList T) :
    loop Stop.endless (fun (l,position) =>
      if l.count ≤ position then .ok (.done l)
      else do
        let l' ← l.push fuel (← l.items.read position)
        .ok (.next (l',position + 1))) rounds (l,position) ≠ .ok l' := by
  induction rounds generalizing l position with
  | zero => exact fun he => by cases he
  | succ rounds ih =>
    intro he
    rw [loop] at he
    dsimp only at he
    rw [if_neg (by omega)] at he
    cases hread : l.items.read position with
    | error stop =>
      rw [hread] at he
      cases he
    | ok value =>
      cases hpush : l.push fuel value with
      | error stop =>
        rw [hread,ok_bind,hpush] at he
        cases he
      | ok grown =>
        rw [hread,ok_bind,hpush] at he
        exact ih grown (position + 1) (by rw [push_count hpush]; omega) he

/-- A list that has values is never pushed onto itself to the end. -/
theorem pushAllOfItself_endless (hcount : 0 < l.count) {l' : EnsList T} : l.pushAllOfItself fuel ≠ .ok l' :=
  pushRounds_endless fuel l 0 hcount l'

theorem pushAllOfItself_nil (h : Holds l []) (hfuel : 0 < fuel) : l.pushAllOfItself fuel = .ok l := by
  obtain ⟨fuel,rfl⟩ : ∃ n, fuel = n + 1 := ⟨fuel - 1,by omega⟩
  refine loop_done ?_
  have hzero : l.count ≤ 0 := Nat.le_of_eq h.count
  dsimp only
  rw [if_pos hzero]

theorem doubled_endless (hc : 0 < capacity) : EnsList.doubled fuel capacity 0 = .error .endless := by
  induction fuel with
  | zero => rfl
  | succ fuel ih => exact (loop_next (congrArg Except.ok (if_pos hc))).trans ih

theorem reserve_endless (hl : l.items.length = 0) (hc : 0 < capacity) : l.reserve fuel capacity = .error .endless := by
  rw [EnsList.reserve,hl,if_neg (by simpa using hc),Nat.cast_zero,doubled_endless hc]
  rfl

/-! ### Taking values out -/

theorem pop_ok (h : Holds l (xs ++ [value])) : ∃ l', l.pop = .ok (value,l') ∧ Holds l' xs := by
  obtain ⟨n,rfl,hn⟩ := h.room
  have hlen : (xs ++ [value]).length = xs.length + 1 := List.length_append
  refine ⟨⟨filled xs (n + 1),xs.length⟩,?_,holds_filled (by omega)⟩
  rw [EnsList.pop,hlen,if_neg (Nat.succ_ne_zero _),Nat.add_sub_cancel]
  dsimp only
  rw [filled_concat,RawArray.read_middle (List.length_map _),ok_bind,RawArray.clear_middle (List.length_map _),ok_bind,← filled_succ]

theorem shiftUp_ok {a : ℕ} (ha : a ≤ xs.length) : ∃ hole, (List.range (xs.length - a)).foldlM
    (fun items k => do RawArray.write items (xs.length - k) (← RawArray.read items (xs.length - k - 1))) (filled xs (n + 1)) =
      .ok ((xs.take a).map some ++ hole :: ((xs.drop a).map some ++ List.replicate n none)) := by
  obtain ⟨moved,hmoved,hole,rfl⟩ := foldlM_range (n := xs.length - a)
    (f := fun items k => do RawArray.write items (xs.length - k) (← RawArray.read items (xs.length - k - 1)))
    (I := fun k items => ∃ hole, items =
      (xs.take (xs.length - k)).map some ++ hole :: ((xs.drop (xs.length - k)).map some ++ List.replicate n none))
    (b := filled xs (n + 1))
    (fun k hk items hi => by
      obtain ⟨hole,rfl⟩ := hi
      obtain ⟨m,hm⟩ : ∃ m, xs.length - k = m + 1 := ⟨xs.length - k - 1,by omega⟩
      have hlt : m < xs.length := by omega
      have htake : (xs.take (m + 1)).map some = (xs.take m).map some ++ [some xs[m]] := by
        rw [List.take_succ_eq_append_getElem hlt,List.map_append]
        rfl
      refine ⟨_,?_,some xs[m],rfl⟩
      rw [hm,Nat.add_sub_cancel,show xs.length - (k + 1) = m by omega]
      conv_lhs => rw [htake,List.append_assoc,List.singleton_append]
      rw [RawArray.read_middle (length_map_take hlt.le),ok_bind,← List.singleton_append,← List.append_assoc,← htake,
        RawArray.write_middle (length_map_take (by omega)),htake,List.drop_eq_getElem_cons hlt,List.append_assoc]
      rfl)
    ⟨none,by simp [filled_succ]⟩
  rw [Nat.sub_sub_self ha] at hmoved
  exact ⟨hole,hmoved⟩

theorem insert_ok (h : Holds l xs) {a : ℕ} (ha : a ≤ xs.length) (hfit : Fits l.items.length (l.count + 1))
    (hroom : HasRoom l.items.length (l.count + 1)) (hfuel : 64 ≤ fuel) (value : T) :
    ∃ l', l.insert fuel a value = .ok l' ∧ Holds l' (xs.take a ++ value :: xs.drop a) := by
  obtain ⟨l',hl,hholds,hcap,-⟩ := reserve_ok h hfit hroom hfuel
  have hcount := h.count
  obtain ⟨n,rfl,hn⟩ := hholds.room
  rw [length_filled] at hcap
  obtain ⟨n,rfl⟩ : ∃ n', n = n' + 1 := ⟨n - 1,by omega⟩
  obtain ⟨hole,hmoved⟩ := shiftUp_ok (n := n) ha
  have hlen : (xs.take a ++ value :: xs.drop a).length = xs.length + 1 := by
    rw [List.length_append,List.length_cons,List.length_take,List.length_drop]
    omega
  refine ⟨⟨filled (xs.take a ++ value :: xs.drop a) n,xs.length + 1⟩,?_,hlen ▸ holds_filled (by omega)⟩
  rw [EnsList.insert,if_neg (by omega),wrap_next h hfit,hl,ok_bind]
  dsimp only
  rw [Int.toNat_natCast,hmoved,ok_bind,RawArray.write_middle (length_map_take ha),ok_bind,filled,List.map_append,List.append_assoc]
  rfl

theorem shiftDown_ok {a : ℕ} (ha : a < xs.length) : ∃ hole, (List.range (xs.length - 1 - a)).foldlM
    (fun items k => do RawArray.write items (a + k) (← RawArray.read items (a + k + 1))) (filled xs n) =
      .ok ((xs.eraseIdx a).map some ++ hole :: List.replicate n none) := by
  have hlen : ∀ k, a + k < xs.length → ((xs.take a ++ (xs.drop (a + 1)).take k).map (some : T → Option T)).length = a + k := by
    intro k hk
    rw [List.length_map,List.length_append,List.length_take,List.length_take,List.length_drop]
    omega
  obtain ⟨moved,hmoved,hole,rfl⟩ := foldlM_range (n := xs.length - 1 - a)
    (f := fun items k => do RawArray.write items (a + k) (← RawArray.read items (a + k + 1)))
    (I := fun k items => ∃ hole, items = (xs.take a ++ (xs.drop (a + 1)).take k).map some ++
      hole :: ((xs.drop (a + 1 + k)).map some ++ List.replicate n none)) (b := filled xs n)
    (fun k hk items hi => by
      obtain ⟨hole,rfl⟩ := hi
      have hlt : a + 1 + k < xs.length := by omega
      have hlen' : ((xs.take a ++ (xs.drop (a + 1)).take k).map some ++ [hole]).length = a + k + 1 := by
        rw [List.length_append,hlen k (by omega)]
        rfl
      have hlt' : k < (xs.drop (a + 1)).length := by rw [List.length_drop]; omega
      have hmap : ∀ ys y, (ys ++ [y]).map (some : T → Option T) = ys.map some ++ [some y] := fun ys y => by rw [List.map_append]; rfl
      refine ⟨_,?_,some xs[a + 1 + k],rfl⟩
      rw [List.drop_eq_getElem_cons hlt,List.map_cons]
      conv_lhs =>
        enter [1]
        rw [List.cons_append,← List.singleton_append,← List.append_assoc]
      rw [RawArray.read_middle hlen',ok_bind,List.cons_append,RawArray.write_middle (hlen k (by omega)),List.take_succ_eq_append_getElem hlt',
        List.getElem_drop,← List.append_assoc (xs.take a),hmap,List.append_assoc]
      rfl)
    ⟨some xs[a],by rw [filled,map_split ha,List.take_zero,List.append_nil,List.append_assoc]; rfl⟩
  have hrest : (xs.drop (a + 1)).take (xs.length - 1 - a) = xs.drop (a + 1) := List.take_of_length_le (by rw [List.length_drop]; omega)
  have hnone : xs.drop (a + 1 + (xs.length - 1 - a)) = [] := List.drop_eq_nil_of_le (by omega)
  rw [hrest,hnone,← List.eraseIdx_eq_take_drop_succ] at hmoved
  exact ⟨hole,hmoved⟩

theorem removeAt_ok (h : Holds l xs) {a : ℕ} (ha : a < xs.length) :
    ∃ l', l.removeAt a = .ok (xs[a],l') ∧ Holds l' (xs.eraseIdx a) := by
  obtain ⟨n,rfl,hn⟩ := h.room
  obtain ⟨hole,hmoved⟩ := shiftDown_ok (n := n) ha
  have hlen : (xs.eraseIdx a).length = xs.length - 1 := List.length_eraseIdx_of_lt ha
  have hlong : xs.length - 1 + (n + 1) < 2 ^ 63 := by omega
  have hholds : Holds ⟨filled (xs.eraseIdx a) (n + 1),xs.length - 1⟩ (xs.eraseIdx a) := by
    rw [← hlen] at hlong ⊢
    exact holds_filled hlong
  have hinside : ¬((a : ℤ) < 0 ∨ (xs.length : ℤ) ≤ a) := by omega
  refine ⟨_,?_,hholds⟩
  rw [EnsList.removeAt,if_neg hinside]
  dsimp only
  rw [Int.toNat_natCast,hmoved,filled,read_filled ha,ok_bind,ok_bind,RawArray.clear_middle ((List.length_map _).trans hlen),ok_bind,
    ← filled_succ]

theorem indexFrom_ok (test : T → Bool) (xs ys : List T) (post : RawArray T) :
    EnsList.indexFrom ((xs ++ ys).map some ++ post) test ys.length xs.length =
      .ok (((ys.findIdx? test).map fun k => ((xs.length + k : ℕ) : ℤ)).getD (-1)) := by
  induction ys generalizing xs with
  | nil => rfl
  | cons y ys ih =>
    have hread : RawArray.read ((xs ++ y :: ys).map some ++ post) xs.length = .ok y := by
      rw [List.map_append,List.append_assoc]
      exact RawArray.read_middle (List.length_map _)
    rw [List.length_cons,EnsList.indexFrom,hread,ok_bind,List.findIdx?_cons]
    split_ifs with htest
    · rfl
    · have hrest := ih (xs ++ [y])
      rw [List.append_assoc,List.singleton_append,List.length_append,List.length_singleton] at hrest
      rw [hrest,Option.map_map]
      refine congrArg (fun o => Except.ok (Option.getD o (-1))) (congrFun (congrArg Option.map (funext fun k => ?_)) _)
      rw [Function.comp_apply,Nat.add_assoc,Nat.add_comm 1 k]

theorem remove_ok [BEq T] (h : Holds l xs) (value : T) : ∃ l', l.remove value = .ok ((xs.findIdx? (· == value)).isSome,l') ∧
    Holds l' (((xs.findIdx? (· == value)).map xs.eraseIdx).getD xs) := by
  have hindex : l.indexOf value = .ok (((xs.findIdx? (· == value)).map fun k => ((k : ℕ) : ℤ)).getD (-1)) := by
    obtain ⟨n,rfl,-⟩ := h.room
    have hfrom := indexFrom_ok (· == value) [] xs (List.replicate n none)
    simp only [List.nil_append,List.length_nil,Nat.zero_add] at hfrom
    exact hfrom
  rw [EnsList.remove,hindex,ok_bind]
  cases hfind : xs.findIdx? (· == value) with
  | none => exact ⟨l,rfl,h⟩
  | some a =>
    have ha : a < xs.length := (List.findIdx?_eq_some_iff_getElem.mp hfind).1
    obtain ⟨l',hl,hholds⟩ := removeAt_ok h ha
    refine ⟨l',?_,hholds⟩
    rw [Option.map_some,Option.getD_some,if_neg (by omega),hl]
    rfl

/-! ### Dropping values -/

theorem dropFrom_ok (kept : List T) (rest : RawArray T) (n : ℕ) :
    EnsList.dropFrom ⟨kept.map some ++ (rest ++ List.replicate n none),kept.length + rest.length⟩ kept.length =
      .ok ⟨filled kept (rest.length + n),kept.length⟩ := by
  obtain ⟨items,hitems,rfl⟩ := foldlM_range (n := rest.length) (f := fun items k => RawArray.clear items (kept.length + k))
    (I := fun k items => items = kept.map some ++ (List.replicate k none ++ (rest.drop k ++ List.replicate n none)))
    (b := kept.map some ++ (rest ++ List.replicate n none))
    (fun k hk items hi => by
      subst hi
      refine ⟨_,?_,rfl⟩
      rw [List.drop_eq_getElem_cons hk,List.cons_append,← List.append_assoc,RawArray.clear_middle (by simp),List.replicate_succ',
        List.append_assoc,List.append_assoc]
      rfl)
    rfl
  rw [EnsList.dropFrom]
  dsimp only
  rw [Nat.add_sub_cancel_left,hitems,ok_bind,List.drop_length,List.nil_append,List.replicate_append_replicate]
  rfl

theorem clear_ok (h : Holds l xs) : ∃ l', l.clear = .ok l' ∧ Holds l' [] := by
  obtain ⟨n,rfl,hn⟩ := h.room
  have hdrop := dropFrom_ok [] (xs.map some) n
  rw [List.map_nil,List.nil_append,List.length_nil,Nat.zero_add,List.length_map] at hdrop
  exact ⟨_,hdrop,holds_filled (by rw [List.length_nil]; omega)⟩

/-- The values kept of the first ones stand in front, and those not looked at yet where they were. -/
structure Compacted (test : T → Bool) (xs : List T) (n i : ℕ) (s : RawArray T × ℕ) (mid : RawArray T) : Prop where
  items : s.1 = ((xs.take i).filter fun x => !test x).map some ++ (mid ++ ((xs.drop i).map some ++ List.replicate n none))
  kept : s.2 = ((xs.take i).filter fun x => !test x).length
  length : s.2 + mid.length = i

theorem Compacted.step {test : T → Bool} {s : RawArray T × ℕ} {mid : RawArray T} (h : Compacted test xs n i s mid) (hi : i < xs.length) :
    s.1.read i = .ok xs[i] ∧ (test xs[i] = true → Compacted test xs n (i + 1) s (mid ++ [some xs[i]])) ∧
      (test xs[i] = false → ∃ items mid', s.1.write s.2 xs[i] = .ok items ∧ Compacted test xs n (i + 1) (items,s.2 + 1) mid') := by
  have hlength := h.length
  have hfilter : (xs.take (i + 1)).filter (fun x => !test x) =
      (xs.take i).filter (fun x => !test x) ++ [xs[i]].filter fun x => !test x := by
    rw [List.take_succ_eq_append_getElem hi,List.filter_append]
  have hdrop : (xs.drop i).map some ++ List.replicate n none = some xs[i] :: ((xs.drop (i + 1)).map some ++ List.replicate n none) := by
    rw [List.drop_eq_getElem_cons hi]
    rfl
  refine ⟨?_,fun htest => ?_,fun htest => ?_⟩
  · rw [h.items,hdrop,← List.append_assoc]
    exact RawArray.read_middle (by rw [List.length_append,List.length_map,← h.kept,hlength])
  · have hnone : [xs[i]].filter (fun x => !test x) = [] := by simp [htest]
    refine ⟨?_,?_,?_⟩
    · rw [h.items,hfilter,hnone,List.append_nil,hdrop,List.append_assoc mid,List.singleton_append]
    · rw [h.kept,hfilter,hnone,List.append_nil]
    · rw [List.length_append,List.length_singleton]
      omega
  · -- What is written over stands between the values kept and the next value, or is the value itself.
    have hself : [xs[i]].filter (fun x => !test x) = [xs[i]] := by simp [htest]
    obtain ⟨slot,mid',hnext⟩ : ∃ slot mid', mid ++ [some xs[i]] = slot :: mid' :=
      List.exists_cons_of_ne_nil (List.append_ne_nil_of_right_ne_nil _ (List.cons_ne_nil _ _))
    have hmid' : mid'.length = mid.length := by
      have hlen := congrArg List.length hnext
      rw [List.length_append,List.length_singleton,List.length_cons] at hlen
      omega
    have hsplit : s.1 = ((xs.take i).filter fun x => !test x).map some ++
        slot :: (mid' ++ ((xs.drop (i + 1)).map some ++ List.replicate n none)) := by
      have hback : ∀ behind, mid ++ some xs[i] :: behind = slot :: (mid' ++ behind) := fun behind => by
        rw [← List.cons_append,← hnext,List.append_assoc,List.singleton_append]
      rw [h.items,hdrop,hback]
    have hwrite : s.1.write s.2 xs[i] = .ok (((xs.take i).filter fun x => !test x).map some ++
        some xs[i] :: (mid' ++ ((xs.drop (i + 1)).map some ++ List.replicate n none))) := by
      rw [hsplit]
      exact RawArray.write_middle (by rw [List.length_map,h.kept])
    refine ⟨_,mid',hwrite,?_,?_,?_⟩
    · rw [hfilter,hself,List.map_append,List.append_assoc]
      rfl
    · rw [hfilter,hself,List.length_append,← h.kept]
      rfl
    · rw [hmid']
      dsimp only
      omega

theorem removeWhere_ok (h : Holds l xs) (test : T → Bool) :
    ∃ l', l.removeWhere test = .ok (xs.countP test,l') ∧ Holds l' (xs.filter fun x => !test x) := by
  obtain ⟨n,rfl,hn⟩ := h.room
  let body (s : RawArray T × ℕ) (i : ℕ) : Except Stop (RawArray T × ℕ) := do
    let value ← s.1.read i
    if test value then .ok s else .ok (← s.1.write s.2 value,s.2 + 1)
  have hbody : ∀ i < xs.length, ∀ s, (∃ mid, Compacted test xs n i s mid) → ∃ s', body s i = .ok s' ∧ ∃ mid, Compacted test xs n (i + 1) s' mid := by
    rintro i hi s ⟨mid,hs⟩
    obtain ⟨hread,htrue,hfalse⟩ := hs.step hi
    cases htest : test xs[i] with
    | true =>
      refine ⟨s,?_,_,htrue htest⟩
      simp only [body,hread,ok_bind,htest,if_true]
    | false =>
      obtain ⟨items,mid',hwrite,hnext⟩ := hfalse htest
      refine ⟨_,?_,mid',hnext⟩
      simp only [body,hread,ok_bind,htest,hwrite]
      rfl
  have hstart : Compacted test xs n 0 (filled xs n,0) [] := ⟨by simp [filled],by simp,rfl⟩
  obtain ⟨⟨items,kept⟩,hitems,mid,hlast⟩ := foldlM_range hbody ⟨_,hstart⟩
  have hkept := hlast.kept
  have hslots := hlast.items
  have hmid := hlast.length
  dsimp only at hkept hslots hmid
  rw [List.take_length] at hkept hslots
  rw [List.drop_length,List.map_nil,List.nil_append] at hslots
  have hcount : xs.length - kept = xs.countP test := by
    rw [hkept,List.length_eq_countP_add_countP test (l := xs),← List.countP_eq_length_filter]
    simp
  have hdrop := dropFrom_ok (xs.filter fun x => !test x) mid n
  rw [← hslots,← hkept,hmid] at hdrop
  refine ⟨⟨filled (xs.filter fun x => !test x) (mid.length + n),kept⟩,?_,⟨hkept,⟨_,rfl⟩,?_⟩⟩
  · change ((List.range xs.length).foldlM body (filled xs n,0) >>= _) = _
    rw [hitems,ok_bind]
    dsimp only
    rw [hdrop,ok_bind,hcount]
  · rw [length_filled,← hkept]
    omega

/-! ### Reversal and copies -/

theorem reversedBetween_ok (xs : List T) (pre post : RawArray T) :
    EnsList.reversedBetween (pre ++ (xs.map some ++ post)) pre.length (pre.length + xs.length - 1) =
      .ok (pre ++ (xs.reverse.map some ++ post)) := by
  induction xs using List.bidirectionalRec generalizing pre post with
  | nil =>
    rw [EnsList.reversedBetween,if_neg (by simp)]
    rfl
  | singleton a =>
    rw [EnsList.reversedBetween,if_neg (by simp)]
    rfl
  | cons_append a xs b ih =>
    have hlen : (a :: (xs ++ [b])).length = xs.length + 2 := by simp
    have hhigh : ((pre.length : ℤ) + ((a :: (xs ++ [b])).length : ℕ) - 1) = ((pre.length + xs.length + 1 : ℕ) : ℤ) := by
      rw [hlen]
      omega
    have hwhole : pre ++ ((a :: (xs ++ [b])).map some ++ post) = pre ++ some a :: (xs.map some ++ some b :: post) := by simp
    have hlast : ∀ slot : Option T, (pre ++ slot :: xs.map some).length = pre.length + xs.length + 1 := fun slot => by
      rw [List.length_append,List.length_cons,List.length_map]
      omega
    have hread : RawArray.read (pre ++ some a :: (xs.map some ++ some b :: post)) (pre.length + xs.length + 1) = .ok b := by
      rw [← List.cons_append,← List.append_assoc]
      exact RawArray.read_middle (hlast _)
    have hwrite : RawArray.write (pre ++ some b :: (xs.map some ++ some b :: post)) (pre.length + xs.length + 1) a =
        .ok (pre ++ some b :: (xs.map some ++ some a :: post)) := by
      have hsplit : ∀ slot, pre ++ some b :: (xs.map some ++ slot :: post) = (pre ++ some b :: xs.map some) ++ slot :: post := by simp
      rw [hsplit,hsplit]
      exact RawArray.write_middle (hlast _)
    have hrest := ih (pre ++ [some b]) (some a :: post)
    have hlow : (((pre ++ [some b]).length : ℕ) : ℤ) = pre.length + 1 := by rw [List.length_append]; rfl
    have hhigh' : (((pre ++ [some b]).length : ℕ) : ℤ) + (xs.length : ℕ) - 1 = ((pre.length + xs.length + 1 : ℕ) : ℤ) - 1 := by omega
    rw [hhigh',hlow,List.append_assoc,List.append_assoc,List.singleton_append,List.singleton_append] at hrest
    rw [EnsList.reversedBetween,hhigh,if_pos (by omega),Int.toNat_natCast,Int.toNat_natCast,hwhole,RawArray.read_middle rfl,ok_bind,hread,
      ok_bind,RawArray.write_middle rfl,ok_bind,hwrite,ok_bind,hrest]
    simp

theorem reverse_ok (h : Holds l xs) : ∃ l', l.reverse = .ok l' ∧ Holds l' xs.reverse := by
  obtain ⟨n,rfl,hn⟩ := h.room
  have hreversed := reversedBetween_ok xs [] (List.replicate n none)
  rw [List.nil_append,List.nil_append,List.length_nil,Nat.cast_zero,zero_add] at hreversed
  have hlen : xs.reverse.length = xs.length := List.length_reverse
  refine ⟨⟨filled xs.reverse n,xs.length⟩,?_,hlen ▸ holds_filled (by rwa [hlen])⟩
  rw [EnsList.reverse]
  dsimp only
  rw [filled,hreversed,ok_bind]
  rfl

theorem copy_ok (h : Holds l xs) : ∃ l', l.copy = .ok l' ∧ Holds l' xs := by
  obtain ⟨n,rfl,hn⟩ := h.room
  have hsize : xs.length ≤ (if (xs.length : ℤ) < 1 then 1 else (xs.length : ℤ)).toNat := by
    split_ifs <;> omega
  have hlong : (if (xs.length : ℤ) < 1 then 1 else (xs.length : ℤ)).toNat < 2 ^ 63 := by
    split_ifs <;> omega
  refine ⟨⟨filled xs _,xs.length⟩,?_,holds_filled (by rwa [Nat.add_sub_of_le hsize])⟩
  rw [EnsList.copy,EnsList.withCapacity,RawArray.allocate]
  dsimp only
  rw [copied_ok hsize]
  rfl

end Ens.Collections.ListStore
