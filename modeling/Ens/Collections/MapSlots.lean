import Ens.Collections.Map
import Mathlib.Data.Nat.Bitwise

/-! # The slots of a hash map

The probe of a key's hash reaches the slot of every entry before any empty slot. Storing an entry in
the first slot of its probe that holds none, removing one and moving all of them keep this.
-/
set_option linter.all false
namespace Ens.Collections.Map
open Entries Probe
variable {K V : Type} [BEq K] [Hashable K]
variable {slots old fresh : List (Slot K V)} {k key : K} {v w : V} {i j size n : ℕ} {x : Slot K V}

/-! ### One slot -/

omit [BEq K] [Hashable K] in
@[simp] theorem slotAt_set_self (h : i < slots.length) : slotAt (slots.set i x) i = x := by
  simp [slotAt,List.getD_eq_getElem?_getD,h]

omit [BEq K] [Hashable K] in
theorem slotAt_set_ne (h : i ≠ j) : slotAt (slots.set i x) j = slotAt slots j := by
  simp [slotAt,List.getD_eq_getElem?_getD,h]

omit [BEq K] [Hashable K] in
theorem lt_of_slotAt (h : slotAt slots i ≠ .empty) : i < slots.length := by
  by_contra hi
  exact h (by simp [slotAt,List.getD_eq_getElem?_getD,List.getElem?_eq_none (Nat.le_of_not_lt hi)])

omit [BEq K] [Hashable K] in
theorem lt_of_live (h : slotAt slots i = .live k v) : i < slots.length := lt_of_slotAt (by rw [h]; nofun)

omit [BEq K] [Hashable K] in
theorem slots_around (h : i < slots.length) : ∃ a b, slots = a ++ slotAt slots i :: b ∧ a.length = i ∧
    ∀ x, slots.set i x = a ++ x :: b := by
  refine ⟨slots.take i,slots.drop (i + 1),?_,by simp; omega,fun x => List.set_eq_take_append_cons_drop.trans (if_pos h)⟩
  have : slotAt slots i = slots[i] := by simp [slotAt,List.getD_eq_getElem?_getD,h]
  rw [this,List.getElem_cons_drop,List.take_append_drop]

omit [BEq K] [Hashable K] in
theorem entries_append {a b : List (Slot K V)} : entries (a ++ b) = entries a ++ entries b := List.filterMap_append ..

omit [BEq K] [Hashable K] in
theorem entries_around (h : slotAt slots i = .live k v) : ∃ a b, entries slots = a ++ (k,v) :: b ∧
    (∀ u, entries (slots.set i (.live k u)) = a ++ (k,u) :: b) ∧ entries (slots.set i .removed) = a ++ b := by
  obtain ⟨a,b,hs,-,hset⟩ := slots_around (lt_of_live h)
  refine ⟨entries a,entries b,?_,fun u => ?_,?_⟩
  · conv_lhs => rw [hs,h]
    rw [entries_append]
    rfl
  · rw [hset,entries_append]
    rfl
  · rw [hset,entries_append]
    rfl

omit [BEq K] [Hashable K] in
theorem entries_store (hi : i < slots.length) (h : (slotAt slots i).isLive = false) :
    (entries (slots.set i (.live k v))).Perm ((k,v) :: entries slots) := by
  obtain ⟨a,b,hs,-,hset⟩ := slots_around hi
  have hold : entries slots = entries a ++ entries b := by
    rw [hs,entries_append]
    cases hx : slotAt slots i with
    | live _ _ => rw [hx] at h; cases h
    | _ => rfl
  rw [hset,entries_append,hold]
  exact List.perm_middle

omit [BEq K] [Hashable K] in
theorem mem_entries : (k,v) ∈ entries slots ↔ ∃ i, slotAt slots i = .live k v := by
  constructor
  · intro h
    obtain ⟨x,hx,he⟩ := List.mem_filterMap.mp h
    obtain ⟨i,hi,rfl⟩ := List.mem_iff_getElem.mp hx
    refine ⟨i,?_⟩
    have : slotAt slots i = slots[i] := by simp [slotAt,List.getD_eq_getElem?_getD,hi]
    rw [this]
    cases hs : slots[i] with
    | live _ _ => rw [hs] at he; cases he; rfl
    | _ => rw [hs] at he; cases he
  · rintro ⟨i,hi⟩
    obtain ⟨a,b,he,-⟩ := entries_around hi
    simp [he]

/-! ### Probes -/

/-- The number of slots is a power of two. -/
def Doubled (slots : List (Slot K V)) : Prop := ∃ n, slots.length = 2 ^ n

def along (slots : List (Slot K V)) (key : K) (d : ℕ) : ℕ := ((hash key).toNat + d) % slots.length

/-- The probe of a key's hash reaches its entry before an empty slot. -/
def Chained (slots : List (Slot K V)) : Prop := ∀ i k v, slotAt slots i = .live k v →
  ∃ d, along slots k d = i ∧ ∀ j < d, slotAt slots (along slots k j) ≠ .empty

omit [BEq K] in
theorem home_eq (h : Doubled slots) (key : K) : home slots.length key = (hash key).toNat % slots.length := by
  obtain ⟨n,hn⟩ := h
  rw [home,hn,Nat.and_two_pow_sub_one_eq_mod]

omit [BEq K] [Hashable K] in
theorem following_eq (h : Doubled slots) (i : ℕ) : following slots.length i = (i + 1) % slots.length := by
  obtain ⟨n,hn⟩ := h
  rw [following,hn,Nat.and_two_pow_sub_one_eq_mod]

def ends (slots : List (Slot K V)) (key : K) (i : ℕ) : Bool :=
  match slotAt slots i with
  | .empty => true
  | .live k _ => k == key
  | .removed => false

omit [Hashable K] in
theorem findLoop_eq (fuel slot : ℕ) : findLoop slots key fuel slot =
    match seek (ends slots key) (following slots.length) fuel slot with
    | some i => .ok (if (slotAt slots i).isLive then some i else none)
    | none => .error .forever := by
  induction fuel generalizing slot with
  | zero => rfl
  | succ fuel ih =>
    rw [findLoop,seek,ends]
    cases hs : slotAt slots slot with
    | empty => simp [hs,Slot.isLive]
    | live k v =>
      by_cases hk : k == key
      · simp [hs,hk,Slot.isLive]
      · simpa [hk] using ih _
    | removed => simpa using ih _

omit [BEq K] in
theorem along_lt (hd : Doubled slots) (key : K) (j : ℕ) : along slots key j < slots.length := by
  obtain ⟨n,hn⟩ := hd
  exact Nat.mod_lt _ (hn ▸ Nat.two_pow_pos n)

/-- A search ends, at the slot of an entry with the key or with none in the whole table. -/
theorem findSlot_spec [EquivBEq K] [LawfulHashable K] (hd : Doubled slots) (hc : Chained slots)
    (hempty : ∃ i < slots.length, slotAt slots i = .empty) (key : K) :
    (∃ i k v, findSlot slots key = .ok (some i) ∧ slotAt slots i = .live k v ∧ k == key) ∨
      (findSlot slots key = .ok none ∧ ∀ i k v, slotAt slots i = .live k v → (k == key) = false) := by
  obtain ⟨i,hi,hie⟩ := hempty
  obtain ⟨m,-,hseek,hends,hbefore⟩ := seek_first (ends slots key) (following_eq hd) ⟨i,hi,by simp [ends,hie]⟩
    (hash key).toNat
  have hfind : findSlot slots key = .ok (if (slotAt slots (along slots key m)).isLive then some (along slots key m) else none) := by
    rw [findSlot,home_eq hd,findLoop_eq,hseek]
    rfl
  change ends slots key (along slots key m) at hends
  change ∀ j < m, ends slots key (along slots key j) = false at hbefore
  cases hs : slotAt slots (along slots key m) with
  | live k v =>
    rw [ends,hs] at hends
    exact .inl ⟨_,k,v,by rw [hfind,hs]; rfl,hs,hends⟩
  | removed => rw [ends,hs] at hends; cases hends
  | empty =>
    refine .inr ⟨by rw [hfind,hs]; rfl,fun i k v hlive => ?_⟩
    by_contra hk
    have hk : k == key := by simpa using hk
    obtain ⟨d,hdi,hprobe⟩ := hc i k v hlive
    have hsame (j : ℕ) : along slots k j = along slots key j := by rw [along,along,hash_eq hk]
    have hstop : ends slots key (along slots key d) = true := by
      rw [← hsame,hdi,ends,hlive]
      exact hk
    rcases Nat.lt_trichotomy d m with hlt | rfl | hlt
    · rw [hbefore d hlt] at hstop
      cases hstop
    · rw [← hsame,hdi,hlive] at hs
      cases hs
    · exact hprobe m hlt (by rw [hsame]; exact hs)

omit [BEq K] in
/-- The first slot of a probe without an entry, where there is one. -/
theorem freeSlot_spec (hd : Doubled slots) (hfree : ∃ i < slots.length, (slotAt slots i).isLive = false) (key : K) :
    ∃ d, freeSlot slots key = .ok (along slots key d) ∧ (slotAt slots (along slots key d)).isLive = false ∧
      ∀ j < d, (slotAt slots (along slots key j)).isLive := by
  obtain ⟨i,hi,hie⟩ := hfree
  obtain ⟨m,-,hseek,hstop,hbefore⟩ := seek_first (fun i => !(slotAt slots i).isLive) (following_eq hd)
    ⟨i,hi,by simp [hie]⟩ (hash key).toNat
  refine ⟨m,?_,by simpa [along] using hstop,fun j hj => by simpa [along] using hbefore j hj⟩
  rw [freeSlot,home_eq hd,hseek]
  rfl

/-! ### What keeps the probes -/

omit [BEq K] in
theorem chained_empty (n : ℕ) : Chained (List.replicate n (.empty : Slot K V)) := by
  intro i k v h
  rw [slotAt,List.getD_eq_getElem?_getD] at h
  by_cases hi : i < n <;> simp [hi] at h

omit [BEq K] in
theorem along_set : along (slots.set i x) = along slots := by
  funext k d
  rw [along,along,List.length_set]

omit [BEq K] [Hashable K] in
theorem Slot.not_empty (h : x.isLive) : x ≠ .empty := by
  rintro rfl
  cases h

omit [BEq K] in
/-- No slot of a probe becomes empty when another slot or what it holds changes. -/
theorem Chained.set (hc : Chained slots) (hx : x ≠ .empty)
    (hnew : ∀ k v, x = .live k v → ∃ d, along slots k d = i ∧ ∀ j < d, slotAt slots (along slots k j) ≠ .empty) :
    Chained (slots.set i x) := by
  have hkeep {j : ℕ} (hj : slotAt slots j ≠ .empty) : slotAt (slots.set i x) j ≠ .empty := by
    by_cases hij : i = j
    · subst hij
      rwa [slotAt_set_self (lt_of_slotAt hj)]
    · rwa [slotAt_set_ne hij]
  intro j k v hlive
  rw [along_set]
  by_cases hij : i = j
  · subst hij
    have hlt : i < slots.length := by simpa using lt_of_live hlive
    rw [slotAt_set_self hlt] at hlive
    obtain ⟨d,hd,hprobe⟩ := hnew k v hlive
    exact ⟨d,hd,fun l hl => hkeep (hprobe l hl)⟩
  · rw [slotAt_set_ne hij] at hlive
    obtain ⟨d,hd,hprobe⟩ := hc j k v hlive
    exact ⟨d,hd,fun l hl => hkeep (hprobe l hl)⟩

omit [BEq K] in
theorem Chained.remove (hc : Chained slots) : Chained (slots.set i .removed) := hc.set nofun nofun

omit [BEq K] in
theorem Chained.write (hc : Chained slots) (h : slotAt slots i = .live k v) : Chained (slots.set i (.live k w)) := by
  refine hc.set nofun fun k' v' he => ?_
  cases he
  exact hc i k v h

omit [BEq K] in
theorem Chained.store {d : ℕ} (hc : Chained slots) (hbefore : ∀ j < d, (slotAt slots (along slots key j)).isLive) :
    Chained (slots.set (along slots key d) (.live key v)) := by
  refine hc.set nofun fun k' v' he => ?_
  cases he
  exact ⟨d,rfl,fun j hj => Slot.not_empty (hbefore j hj)⟩

/-! ### How many slots are used -/

def usedSlots (slots : List (Slot K V)) : ℕ := slots.countP fun x => !x.isEmpty

omit [BEq K] [Hashable K] in
theorem usedSlots_append {a b : List (Slot K V)} : usedSlots (a ++ b) = usedSlots a + usedSlots b := List.countP_append ..

omit [BEq K] [Hashable K] in
theorem usedSlots_cons {a : List (Slot K V)} : usedSlots (x :: a) = usedSlots a + if x.isEmpty then 0 else 1 := by
  rw [usedSlots,List.countP_cons]
  cases x.isEmpty <;> rfl

omit [BEq K] [Hashable K] in
theorem usedSlots_set (hi : i < slots.length) (hx : x.isEmpty = false) :
    usedSlots (slots.set i x) = usedSlots slots + if (slotAt slots i).isEmpty then 1 else 0 := by
  obtain ⟨a,b,hs,-,hset⟩ := slots_around hi
  rw [hset]
  conv_rhs => rw [hs]
  rw [usedSlots_append,usedSlots_append,usedSlots_cons,usedSlots_cons,hx]
  have : slotAt (a ++ slotAt slots i :: b) i = slotAt slots i := by rw [← hs]
  rw [this]
  cases (slotAt slots i).isEmpty
  · simp
  · simp; omega

omit [BEq K] [Hashable K] in
theorem exists_empty (h : usedSlots slots < slots.length) : ∃ i < slots.length, slotAt slots i = .empty := by
  by_contra hne
  push Not at hne
  have hall : usedSlots slots = slots.length := by
    rw [usedSlots,List.countP_eq_length]
    intro x hx
    obtain ⟨i,hi,rfl⟩ := List.mem_iff_getElem.mp hx
    have := hne i hi
    rw [slotAt,List.getD_eq_getElem?_getD,List.getElem?_eq_getElem hi,Option.getD_some] at this
    cases hs : slots[i] <;> simp_all [Slot.isEmpty]
  omega

omit [BEq K] [Hashable K] in
theorem entries_length_le : (entries slots).length ≤ usedSlots slots := by
  induction slots with
  | nil => exact Nat.le_refl _
  | cons x slots ih =>
    rw [usedSlots_cons]
    cases x with
    | live k v =>
      simp only [entries,List.filterMap_cons,Slot.entry,List.length_cons] at ih ⊢
      exact Nat.succ_le_succ ih
    | _ => exact Nat.le_trans ih (Nat.le_add_right ..)

/-- No slot holds what was left of an entry. -/
def Fresh (slots : List (Slot K V)) : Prop := ∀ i, slotAt slots i ≠ .removed

omit [BEq K] [Hashable K] in
theorem Fresh.tail {a : List (Slot K V)} (h : Fresh (x :: a)) : Fresh a := fun i => h (i + 1)

omit [BEq K] [Hashable K] in
theorem Fresh.used (h : Fresh slots) : usedSlots slots = (entries slots).length := by
  induction slots with
  | nil => rfl
  | cons x slots ih =>
    rw [usedSlots_cons,ih h.tail]
    cases x with
    | live k v => rfl
    | empty => rfl
    | removed => exact absurd rfl (h 0)

omit [BEq K] [Hashable K] in
theorem Fresh.set (h : Fresh slots) (hx : x ≠ .removed) : Fresh (slots.set i x) := by
  intro j hj
  by_cases hij : i = j
  · subst hij
    have hlt : i < (slots.set i x).length := lt_of_slotAt (by rw [hj]; nofun)
    rw [slotAt_set_self (by simpa using hlt)] at hj
    exact hx hj
  · rw [slotAt_set_ne hij] at hj
    exact h j hj

/-! ### Moving to a fresh table -/

omit [BEq K] in
/-- Where the fresh table has a slot for every entry, all of them move to it. -/
theorem moveAll_spec (old : List (Slot K V)) (hd : Doubled fresh) (hc : Chained fresh) (hf : Fresh fresh)
    (hroom : (entries old).length + (entries fresh).length < fresh.length) :
    ∃ slots, moveAll old fresh = .ok slots ∧ slots.length = fresh.length ∧ Chained slots ∧ Fresh slots ∧
      (entries slots).Perm (entries old ++ entries fresh) := by
  induction old generalizing fresh with
  | nil => exact ⟨fresh,rfl,rfl,hc,hf,List.Perm.refl _⟩
  | cons x old ih =>
    cases x with
    | empty | removed => exact ih hd hc hf hroom
    | live k v =>
      have hcons : entries (.live k v :: old) = (k,v) :: entries old := rfl
      rw [hcons,List.length_cons] at hroom
      have hused : usedSlots fresh < fresh.length := by
        rw [hf.used]
        omega
      obtain ⟨i,hi,hempty⟩ := exists_empty hused
      obtain ⟨d,hfree,hlive,hbefore⟩ := freeSlot_spec hd ⟨i,hi,by rw [hempty]; rfl⟩ k
      have hperm := entries_store (k := k) (v := v) (along_lt hd k d) hlive
      have hdoubled : Doubled (fresh.set (along fresh k d) (.live k v)) := by
        rw [Doubled,List.length_set]
        exact hd
      obtain ⟨slots,hs,hlen,hc',hf',hp⟩ := ih hdoubled (hc.store hbefore) (hf.set nofun)
        (by rw [hperm.length_eq,List.length_set,List.length_cons]; omega)
      refine ⟨slots,?_,by rw [hlen,List.length_set],hc',hf',?_⟩
      · rw [moveAll,hfree]
        exact hs
      · rw [hcons,List.cons_append]
        exact (hp.trans (hperm.append_left _)).trans List.perm_middle

end Ens.Collections.Map
