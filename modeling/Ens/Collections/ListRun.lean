import Ens.Collections.ListSpec

/-! # Runs of operations on a list

A list goes through its operations as a sequence does, with two exceptions. A list that wraps an empty array has a store that
doubling never makes larger, and a list that is pushed onto itself grows as fast as it is read.
-/
set_option linter.all false
namespace Ens.Collections.ListStore
open Loop
variable {T : Type} [BEq T] {l : EnsList T} {xs : List T} {fuel : ℕ}

abbrev Cells (T : Type) := { values : List T // values.length < 2 ^ 63 }

inductive Maker (T : Type)
  | new
  | withCapacity (capacity : { c : ℤ // Long.Fits c })
  | of (values : Cells T)
  | wrapping (values : Cells T)

inductive Op (T : Type)
  | push (value : T)
  | pushAll (values : List T)
  | pushAllOfItself
  | pop
  | insert (index : ℤ) (value : T)
  | removeAt (index : ℤ)
  | remove (value : T)
  | removeWhere (test : T → Bool)
  | reverse
  | reserve (capacity : ℤ)
  | clear
  | copy

inductive Result (T : Type)
  | done
  | value (value : T)
  | found (was : Bool)
  | removed (count : ℕ)

omit [BEq T] in
def Maker.made (fuel : ℕ) : Maker T → Except Stop (EnsList T)
  | new => .ok .new
  | withCapacity capacity => .ok (.withCapacity capacity)
  | of values => EnsList.ofValues fuel values
  | wrapping values => .ok (.wrapping values)

def EnsList.perform (fuel : ℕ) (l : EnsList T) : Op T → Except Stop (Result T × EnsList T)
  | .push value => do .ok (.done,← l.push fuel value)
  | .pushAll values => do .ok (.done,← l.pushAll fuel values)
  | .pushAllOfItself => do .ok (.done,← l.pushAllOfItself fuel)
  | .pop => do
    let (value,l) ← l.pop
    .ok (.value value,l)
  | .insert index value => do .ok (.done,← l.insert fuel index value)
  | .removeAt index => do
    let (value,l) ← l.removeAt index
    .ok (.value value,l)
  | .remove value => do
    let (was,l) ← l.remove value
    .ok (.found was,l)
  | .removeWhere test => do
    let (count,l) ← l.removeWhere test
    .ok (.removed count,l)
  | .reverse => do .ok (.done,← l.reverse)
  | .reserve capacity => do .ok (.done,← l.reserve fuel capacity)
  | .clear => do .ok (.done,← l.clear)
  | .copy => do .ok (.done,← l.copy)

/-! ### Sequences -/

omit [BEq T] in
def Maker.values : Maker T → List T
  | new => []
  | withCapacity _ => []
  | of values => values
  | wrapping values => values

def Op.onSequence (xs : List T) : Op T → Except Stop (Result T × List T)
  | push value => .ok (.done,xs ++ [value])
  | pushAll values => .ok (.done,xs ++ values)
  | pushAllOfItself => .ok (.done,xs ++ xs)
  | pop =>
    match xs.getLast? with
    | none => .error .popEmpty
    | some value => .ok (.value value,xs.dropLast)
  | insert index value =>
    if index < 0 ∨ xs.length < index then .error (.insertOutside index xs.length)
    else .ok (.done,xs.take index.toNat ++ value :: xs.drop index.toNat)
  | removeAt index =>
    if h : 0 ≤ index ∧ index.toNat < xs.length then .ok (.value (getElem xs index.toNat h.2),xs.eraseIdx index.toNat)
    else .error (.removeOutside index xs.length)
  | remove value => .ok (.found (xs.findIdx? (· == value)).isSome,((xs.findIdx? (· == value)).map xs.eraseIdx).getD xs)
  | removeWhere test => .ok (.removed (xs.countP test),xs.filter fun x => !test x)
  | reverse => .ok (.done,xs.reverse)
  | reserve _ => .ok (.done,xs)
  | clear => .ok (.done,[])
  | copy => .ok (.done,xs)

/-- Every operation ends, with the result it has on the sequence, and the list then holds the sequence and nothing past it. A panic
ends the run. -/
def Agrees (fuel : ℕ) (l : EnsList T) (xs : List T) : List (Op T) → Prop
  | [] => Holds l xs
  | op :: ops => Holds l xs ∧
    match op.onSequence xs with
    | .error stop => l.perform fuel op = .error stop
    | .ok (result,ys) => ∃ l', l.perform fuel op = .ok (result,l') ∧ Agrees fuel l' ys ops

def Maker.Agrees (fuel : ℕ) (maker : Maker T) (ops : List (Op T)) : Prop :=
  ∃ l, maker.made fuel = .ok l ∧ ListStore.Agrees fuel l maker.values ops

/-! ### Conditions along a run -/

def Along (Q : EnsList T → Op T → Prop) (fuel : ℕ) (l : EnsList T) : List (Op T) → Prop
  | [] => True
  | op :: ops => Q l op ∧ ∀ result l', l.perform fuel op = .ok (result,l') → Along Q fuel l' ops

def Maker.Along (Q : EnsList T → Op T → Prop) (fuel : ℕ) (maker : Maker T) (ops : List (Op T)) : Prop :=
  ∀ l, maker.made fuel = .ok l → ListStore.Along Q fuel l ops

omit [BEq T] in
def Op.capacity (l : EnsList T) : Op T → ℤ
  | push _ => l.count + 1
  | pushAll values => l.count + values.length
  | insert index _ => if index < 0 ∨ l.count < index then 0 else l.count + 1
  | reserve capacity => capacity
  | _ => 0

omit [BEq T] in
/-- Doubling the store up to what is asked for does not overflow a long. -/
def DoublingFits (l : EnsList T) (op : Op T) : Prop := Fits l.items.length (op.capacity l)

omit [BEq T] in
def Op.isOntoItself : Op T → Bool
  | pushAllOfItself => true
  | _ => false

omit [BEq T] in
/-- The store has a slot where room is asked for, and a list with values is not pushed onto itself. -/
def CanEnd (l : EnsList T) (op : Op T) : Prop :=
  HasRoom l.items.length (op.capacity l) ∧ (op.isOntoItself = true → l.count = 0)

/-! ### One operation -/

variable {op : Op T} {ops : List (Op T)}

theorem perform_ok (h : Holds l xs) (hfit : DoublingFits l op) (hend : CanEnd l op) (hfuel : 64 ≤ fuel) :
    match op.onSequence xs with
    | .error stop => l.perform fuel op = .error stop
    | .ok (result,ys) => ∃ l', l.perform fuel op = .ok (result,l') ∧ Holds l' ys := by
  have hcount := h.count
  cases op with
  | push value =>
    obtain ⟨l',hl,hh,-⟩ := push_ok h hfit hend.1 hfuel value
    exact ⟨l',by rw [EnsList.perform,hl]; rfl,hh⟩
  | pushAll values =>
    obtain ⟨l',hl,hh⟩ := pushAll_ok h hfit hend.1 hfuel
    exact ⟨l',by rw [EnsList.perform,hl]; rfl,hh⟩
  | pushAllOfItself =>
    obtain rfl : xs = [] := List.eq_nil_of_length_eq_zero (hcount.symm.trans (hend.2 rfl))
    exact ⟨l,by rw [EnsList.perform,pushAllOfItself_nil h (by omega)]; rfl,h⟩
  | pop =>
    rw [Op.onSequence]
    rcases List.eq_nil_or_concat xs with rfl | ⟨ys,y,hxs⟩
    · have hzero : l.count = 0 := hcount
      dsimp only [List.getLast?_nil]
      rw [EnsList.perform,EnsList.pop,if_pos hzero]
      rfl
    · rw [List.concat_eq_append] at hxs
      subst hxs
      obtain ⟨l',hl,hh⟩ := pop_ok h
      rw [List.getLast?_concat,List.dropLast_concat]
      exact ⟨l',by rw [EnsList.perform,hl]; rfl,hh⟩
  | insert index value =>
    rw [Op.onSequence]
    rw [DoublingFits,Op.capacity] at hfit
    rw [CanEnd,Op.capacity] at hend
    rw [hcount] at hfit hend
    split_ifs at hfit hend ⊢ with hout
    · have hout' : index < 0 ∨ (l.count : ℤ) < index := by rwa [hcount]
      dsimp only
      rw [EnsList.perform,EnsList.insert,if_pos hout',hcount]
      rfl
    · obtain ⟨a,rfl⟩ := Int.eq_ofNat_of_zero_le (not_lt.mp fun hlt => hout (.inl hlt))
      rw [← hcount] at hfit hend
      obtain ⟨l',hl,hh⟩ := insert_ok h (a := a) (by omega) hfit hend.1 hfuel value
      exact ⟨l',by rw [EnsList.perform,hl]; rfl,hh⟩
  | removeAt index =>
    rw [Op.onSequence]
    split_ifs with hin
    · obtain ⟨a,rfl⟩ := Int.eq_ofNat_of_zero_le hin.1
      obtain ⟨l',hl,hh⟩ := removeAt_ok h (a := a) hin.2
      exact ⟨l',by rw [EnsList.perform,hl]; rfl,hh⟩
    · have hout : index < 0 ∨ (l.count : ℤ) ≤ index := by omega
      dsimp only
      rw [EnsList.perform,EnsList.removeAt,if_pos hout,hcount]
      rfl
  | remove value =>
    obtain ⟨l',hl,hh⟩ := remove_ok h value
    exact ⟨l',by rw [EnsList.perform,hl]; rfl,hh⟩
  | removeWhere test =>
    obtain ⟨l',hl,hh⟩ := removeWhere_ok h test
    exact ⟨l',by rw [EnsList.perform,hl]; rfl,hh⟩
  | reverse =>
    obtain ⟨l',hl,hh⟩ := reverse_ok h
    exact ⟨l',by rw [EnsList.perform,hl]; rfl,hh⟩
  | reserve capacity =>
    obtain ⟨l',hl,hh,-⟩ := reserve_ok h hfit hend.1 hfuel
    rw [Op.capacity] at hl
    exact ⟨l',by rw [EnsList.perform,hl]; rfl,hh⟩
  | clear =>
    obtain ⟨l',hl,hh⟩ := clear_ok h
    exact ⟨l',by rw [EnsList.perform,hl]; rfl,hh⟩
  | copy =>
    obtain ⟨l',hl,hh⟩ := copy_ok h
    exact ⟨l',by rw [EnsList.perform,hl]; rfl,hh⟩

omit [BEq T] in
theorem push_endless (h : Holds l xs) (hl : l.items.length = 0) {value : T} : l.push fuel value = .error .endless := by
  have hcount : l.count = 0 := Nat.le_zero.mp (hl ▸ h.count_le)
  have hwrap : (0 : ℤ) < Long.wrap (l.count + 1) := by
    rw [hcount]
    decide
  rw [EnsList.push,reserve_endless hl hwrap]
  rfl

theorem perform_endless (fuel : ℕ) (h : Holds l xs) (hend : ¬CanEnd l op) :
    ∃ result ys, op.onSequence xs = .ok (result,ys) ∧ ∀ result' l', l.perform fuel op ≠ .ok (result',l') := by
  have hcount := h.count
  by_cases hroom : HasRoom l.items.length (op.capacity l)
  · have honto : ¬(op.isOntoItself = true → l.count = 0) := fun ho => hend ⟨hroom,ho⟩
    rw [Classical.not_imp] at honto
    obtain ⟨hself,hpos⟩ := honto
    cases op with
    | pushAllOfItself =>
      refine ⟨_,_,rfl,fun result' l' he => ?_⟩
      obtain ⟨grown,hgrown,-⟩ := bind_ok he
      exact pushAllOfItself_endless (Nat.pos_of_ne_zero hpos) hgrown
    | _ => cases hself
  · rw [HasRoom,Classical.not_imp,not_lt] at hroom
    obtain ⟨hless,hzero⟩ := hroom
    have hlen : l.items.length = 0 := Nat.le_zero.mp hzero
    have hnone : l.count = 0 := Nat.le_zero.mp (hlen ▸ h.count_le)
    rw [hlen,Nat.cast_zero] at hless
    cases op with
    | push value =>
      refine ⟨_,_,rfl,fun result' l' he => ?_⟩
      rw [EnsList.perform,push_endless h hlen] at he
      cases he
    | pushAll values =>
      refine ⟨_,_,rfl,fun result' l' he => ?_⟩
      cases values with
      | nil => 
        rw [Op.capacity,hnone] at hless
        exact absurd hless (by simp)
      | cons value values =>
        rw [EnsList.perform,EnsList.pushAll,List.foldlM_cons,push_endless h hlen] at he
        cases he
    | insert index value =>
      rw [Op.capacity] at hless
      split_ifs at hless with hout
      · omega
      · have hin : ¬(index < 0 ∨ (xs.length : ℤ) < index) := by rwa [← hcount]
        refine ⟨.done,_,if_neg hin,fun result' l' he => ?_⟩
        have hwrap : (0 : ℤ) < Long.wrap (l.count + 1) := by
          rw [hnone]
          decide
        rw [EnsList.perform,EnsList.insert,if_neg hout,reserve_endless hlen hwrap] at he
        cases he
    | reserve capacity =>
      refine ⟨_,_,rfl,fun result' l' he => ?_⟩
      rw [Op.capacity] at hless
      rw [EnsList.perform,reserve_endless hlen hless] at he
      cases he
    | _ => exact absurd hless (lt_irrefl 0)

/-! ### Runs -/

theorem Agrees.holds (h : Agrees fuel l xs ops) : Holds l xs := by
  cases ops with
  | nil => exact h
  | cons op ops => exact h.1

/-- A run from a list that holds a sequence follows the sequence exactly where each operation can end. -/
theorem run_iff (h : Holds l xs) (hfits : Along DoublingFits fuel l ops) (hfuel : 64 ≤ fuel) :
    Agrees fuel l xs ops ↔ Along CanEnd fuel l ops := by
  induction ops generalizing l xs with
  | nil => exact ⟨fun _ => trivial,fun _ => h⟩
  | cons op ops ih =>
    obtain ⟨hfit,hrest⟩ := hfits
    constructor
    · rintro ⟨-,hagrees⟩
      have hend : CanEnd l op := by
        by_contra hnot
        obtain ⟨result,ys,hs,hnever⟩ := perform_endless fuel h hnot
        rw [hs] at hagrees
        obtain ⟨l',hl,-⟩ := hagrees
        exact hnever _ _ hl
      refine ⟨hend,fun result l' hl => ?_⟩
      cases hs : op.onSequence xs with
      | error stop =>
        rw [hs] at hagrees
        cases hl.symm.trans hagrees
      | ok next =>
        rw [hs] at hagrees
        obtain ⟨l'',hl',hnext⟩ := hagrees
        cases hl.symm.trans hl'
        exact (ih hnext.holds (hrest _ _ hl)).mp hnext
    · rintro ⟨hend,hends⟩
      have hstep := perform_ok h hfit hend hfuel
      refine ⟨h,?_⟩
      cases hs : op.onSequence xs with
      | error stop =>
        rw [hs] at hstep
        exact hstep
      | ok next =>
        rw [hs] at hstep
        obtain ⟨l',hl,hh⟩ := hstep
        exact ⟨l',hl,(ih hh (hrest _ _ hl)).mpr (hends _ _ hl)⟩

omit [BEq T] in
theorem fits_of_le {size : ℕ} {capacity : ℤ} (h : capacity ≤ size) : Fits size capacity := fun k hk => by
  have hle : size ≤ size * 2 ^ k := Nat.le_mul_of_pos_right _ (Nat.two_pow_pos k)
  omega

omit [BEq T] in
theorem withCapacity_holds {capacity : ℤ} (hc : Long.Fits capacity) : Holds (EnsList.withCapacity capacity) ([] : List T) := by
  have hlong := hc.2
  refine ⟨rfl,⟨_,rfl⟩,?_⟩
  rw [EnsList.withCapacity,RawArray.allocate,List.length_replicate]
  split_ifs <;> omega

omit [BEq T] in
theorem Maker.made_ok (maker : Maker T) (hfuel : 64 ≤ fuel) : ∃ l, maker.made fuel = .ok l ∧ Holds l maker.values := by
  cases maker with
  | new => exact ⟨_,rfl,rfl,⟨4,rfl⟩,by rw [EnsList.new,RawArray.allocate,List.length_replicate]; decide⟩
  | withCapacity capacity => exact ⟨_,rfl,withCapacity_holds capacity.2⟩
  | of values =>
    have hlong := values.2
    have hstart : Holds (EnsList.withCapacity (values.1.length : ℤ)) ([] : List T) := withCapacity_holds ⟨by omega,by omega⟩
    have henough : ((EnsList.withCapacity (values.1.length : ℤ) : EnsList T).count + values.1.length : ℤ) ≤
        (EnsList.withCapacity (values.1.length : ℤ) : EnsList T).items.length := by
      rw [EnsList.withCapacity,RawArray.allocate]
      dsimp only
      rw [List.length_replicate]
      split_ifs <;> omega
    obtain ⟨l,hl,hh⟩ := pushAll_ok hstart (fits_of_le henough) (fun hlt => absurd henough (not_le.mpr hlt)) hfuel
    exact ⟨l,hl,hh⟩
  | wrapping values =>
    refine ⟨_,rfl,rfl,⟨0,?_⟩,?_⟩
    · rw [filled,List.replicate_zero,List.append_nil]
      rfl
    · rw [EnsList.wrapping,RawArray.wrapping,List.length_map]
      exact values.2

/-- A run on a list, however it was made, ends every operation as a sequence does, and leaves nothing past its length, exactly if the
store has a slot wherever room is asked for and no list with values is pushed onto itself. -/
theorem agrees_iff (maker : Maker T) (ops : List (Op T)) (fuel : ℕ) (hfuel : 64 ≤ fuel) (hfits : maker.Along DoublingFits fuel ops) :
    maker.Agrees fuel ops ↔ maker.Along CanEnd fuel ops := by
  obtain ⟨l,hl,hh⟩ := maker.made_ok hfuel
  have hrun := run_iff hh (hfits l hl) hfuel
  constructor
  · rintro ⟨l',hl',hagrees⟩ l'' hl''
    cases hl.symm.trans hl'
    cases hl.symm.trans hl''
    exact hrun.mp hagrees
  · intro hends
    exact ⟨l,hl,hrun.mpr (hends l hl)⟩

theorem agrees_push_pop : (Maker.new : Maker ℕ).Agrees 64 [.push 7,.pop] := by
  have hpush : (EnsList.new : EnsList ℕ).perform 64 (.push 7) = .ok (.done,⟨[some 7,none,none,none],1⟩) := by
    have hwrap : Long.wrap ((EnsList.new : EnsList ℕ).count + 1) = 1 := by decide
    rw [EnsList.perform,EnsList.push,hwrap]
    rfl
  have hsmall : ∀ (op : Op ℕ) (l : EnsList ℕ), op.capacity l ≤ l.items.length → op.isOntoItself = false → DoublingFits l op ∧ CanEnd l op :=
    fun _ _ hle ho => ⟨fits_of_le hle,fun hlt => absurd hle (not_le.mpr hlt),fun he => by rw [ho] at he; cases he⟩
  have hfirst := hsmall (.push 7) EnsList.new (by decide) rfl
  have hsecond := hsmall .pop ⟨[some 7,none,none,none],1⟩ (by decide) rfl
  have hall : ∀ Q : EnsList ℕ → Op ℕ → Prop, Q EnsList.new (.push 7) → Q ⟨[some 7,none,none,none],1⟩ .pop →
      (Maker.new : Maker ℕ).Along Q 64 [.push 7,.pop] := by
    rintro Q h1 h2 l hl
    cases hl
    refine ⟨h1,fun result l' hl' => ?_⟩
    cases hpush.symm.trans hl'
    exact ⟨h2,fun _ _ _ => trivial⟩
  exact (agrees_iff Maker.new [.push 7,.pop] 64 (Nat.le_refl 64) (hall _ hfirst.1 hsecond.1)).mpr (hall _ hfirst.2 hsecond.2)

/-- A list that wraps an empty array cannot take a value, although no doubling overflows. -/
theorem not_agrees_wrapping : ¬∀ (maker : Maker ℕ) (ops : List (Op ℕ)), (∀ fuel, maker.Along DoublingFits fuel ops) →
    ∃ enough, ∀ fuel ≥ enough, maker.Agrees fuel ops := by
  intro hclaim
  obtain ⟨enough,henough⟩ := hclaim (.wrapping ⟨[],by decide⟩) [.push 7] fun fuel l hl => by
    cases hl
    refine ⟨fun k _ => ?_,fun _ _ _ => trivial⟩
    rw [EnsList.wrapping,RawArray.wrapping,List.map_nil,List.length_nil,Nat.zero_mul]
    decide
  obtain ⟨l,hl,hagrees⟩ := henough enough (Nat.le_refl _)
  cases hl
  obtain ⟨-,l',hl',-⟩ := hagrees
  have hholds : Holds (EnsList.wrapping ([] : List ℕ)) [] := ⟨rfl,⟨0,rfl⟩,by decide⟩
  rw [EnsList.perform,push_endless hholds rfl] at hl'
  cases hl'

end Ens.Collections.ListStore
