import Ens.Collections.MapSlots
import Mathlib.Algebra.Order.Ring.Int
import Mathlib.Tactic.Positivity

/-! # The operations of a hash map

A table has a power of two slots, at most three quarters of them used, so every search ends. Each
operation returns with such a table whose entries are those the operation on a finite map gives, or
stops the program when there is no memory for a larger table.
-/
set_option linter.all false
namespace Ens.Collections.Map
open Entries
variable {K V : Type} [BEq K] [Hashable K]
variable {room m n fuel i : ℕ} {t : Table K V} {slots : List (Slot K V)} {k key : K} {v value : V} {c size r : ℤ}

theorem long_eq (h : -2 ^ 63 ≤ c) (h' : c < 2 ^ 63) : long c = c := by
  apply Int.bmod_eq_of_le_mul_two <;> norm_num <;> omega

theorem two_pow_le (h : m ≤ 61) : (2 : ℤ) ^ m ≤ 2 ^ 61 := pow_le_pow_right₀ (by norm_num) h

theorem toNat_two_pow (n : ℕ) : ((2 : ℤ) ^ n).toNat = 2 ^ n := by
  rw [← Nat.cast_ofNat,← Nat.cast_pow,Int.toNat_natCast]

/-- A size is found for every number of entries that some table has room for. -/
theorem tableSizeLoop_spec (fuel : ℕ) (h0 : 0 ≤ c) (hc : c * 4 ≤ 2 ^ 61 * 3) (hm : m ≤ 61) (hfuel : 62 ≤ fuel + m) :
    ∃ n, tableSizeLoop c fuel (2 ^ m) = .ok (2 ^ n) ∧ n ≤ 61 ∧ c * 4 ≤ 2 ^ n * 3 := by
  induction fuel generalizing m with
  | zero => omega
  | succ fuel ih =>
    have hpow := two_pow_le hm
    have hpos : (0 : ℤ) < 2 ^ m := by positivity
    rw [tableSizeLoop,long_eq (c := 2 ^ m * 3) (by omega) (by omega),long_eq (c := c * 4) (by omega) (by omega)]
    split
    · rename_i hlt
      have hlt61 : m < 61 := by
        by_contra h
        obtain rfl : m = 61 := by omega
        omega
      have hdouble : (2 : ℤ) ^ m * 2 = 2 ^ (m + 1) := (pow_succ 2 m).symm
      have := two_pow_le hlt61
      rw [long_eq (by omega) (by omega),hdouble]
      exact ih hlt61 (by omega)
    · exact ⟨m,rfl,hm,by omega⟩

/-- Past the largest power of two a size is doubled to zero, and never found. -/
theorem tableSizeLoop_lost (he : 48 < long (c * 4)) (hs : size = 2 ^ 62 ∨ size = -2 ^ 63 ∨ size = 0) :
    tableSizeLoop c fuel size = .error .forever := by
  induction fuel generalizing size with
  | zero => rfl
  | succ fuel ih =>
    have hlow : long (size * 3) < long (c * 4) := by
      rcases hs with rfl | rfl | rfl
      · exact lt_trans (by decide) he
      · exact lt_trans (by decide) he
      · exact lt_trans (by decide) he
    rw [tableSizeLoop,if_pos hlow]
    refine ih ?_
    rcases hs with rfl | rfl | rfl
    · exact .inr (.inl (by decide))
    · exact .inr (.inr (by decide))
    · exact .inr (.inr (by decide))

theorem tableSizeLoop_doubled (he : 48 < long (c * 4)) (hm : m ≤ 61) (hr : tableSizeLoop c fuel (2 ^ m) = .ok r) :
    ∃ n, r = 2 ^ n := by
  induction fuel generalizing m with
  | zero => cases hr
  | succ fuel ih =>
    rw [tableSizeLoop] at hr
    split at hr
    · have hdouble : (2 : ℤ) ^ m * 2 = 2 ^ (m + 1) := (pow_succ 2 m).symm
      have hpow := two_pow_le hm
      have hpos : (0 : ℤ) < 2 ^ m := by positivity
      rw [long_eq (by omega) (by omega),hdouble] at hr
      rcases Nat.lt_or_eq_of_le hm with hlt | rfl
      · exact ih hlt hr
      · rw [tableSizeLoop_lost he (.inl rfl)] at hr
        cases hr
    · cases hr
      exact ⟨m,rfl⟩

/-- Whatever the capacity, a size that is found is a power of two. -/
theorem tableSizeFor_doubled (h : tableSizeFor c 16 = .ok r) : ∃ n, r = 2 ^ n := by
  by_cases he : 48 < long (c * 4)
  · exact tableSizeLoop_doubled (m := 4) he (by omega) h
  · refine ⟨4,?_⟩
    have hlong : long (16 * 3) = 48 := by decide
    rw [tableSizeFor,tableSizeLoop,if_neg (by rwa [hlong])] at h
    cases h
    rfl

/-! ### Tables -/

structure Sound (room : ℕ) (t : Table K V) : Prop where
  doubled : Doubled t.slots
  fits : t.slots.length ≤ room
  count : t.count = (entries t.slots).length
  used : t.used = usedSlots t.slots
  load : usedSlots t.slots * 4 ≤ t.slots.length * 3
  chained : Chained t.slots
  distinct : Distinct (entries t.slots)

theorem Sound.pos (h : Sound room t) : 0 < t.slots.length := by
  obtain ⟨n,hn⟩ := h.doubled
  rw [hn]
  exact Nat.two_pow_pos n

theorem Sound.exists_empty (h : Sound room t) : ∃ i < t.slots.length, slotAt t.slots i = .empty := by
  have := h.load
  have := h.pos
  exact Map.exists_empty (by omega)

omit [BEq K] [Hashable K] in
theorem entries_replicate : entries (List.replicate n (.empty : Slot K V)) = [] := by
  induction n with
  | zero => rfl
  | succ n ih => exact ih

omit [BEq K] [Hashable K] in
theorem usedSlots_replicate : usedSlots (List.replicate n (.empty : Slot K V)) = 0 := by
  induction n with
  | zero => rfl
  | succ n ih => rw [List.replicate_succ,usedSlots_cons,ih]; rfl

theorem sound_empty (hn : ∃ k, n = 2 ^ k) (hroom : n ≤ room) (c : ℤ) :
    Sound room { slots := List.replicate n .empty, changes := c : Table K V } where
  doubled := by simpa [Doubled] using hn
  fits := by simpa using hroom
  count := by simp [entries_replicate]
  used := by simp [usedSlots_replicate]
  load := by simp [usedSlots_replicate]
  chained := chained_empty n
  distinct := by rw [entries_replicate]; exact distinct_nil

omit [BEq K] [Hashable K] in
theorem allocate_ok (h : allocate room size = .ok slots) :
    0 ≤ size ∧ size ≤ room ∧ slots = List.replicate size.toNat .empty := by
  unfold allocate at h
  split at h
  · rename_i hc
    cases h
    exact ⟨hc.1,hc.2,rfl⟩
  · cases h

omit [BEq K] [Hashable K] in
theorem allocate_error {e : Stop} (h : allocate (K := K) (V := V) room size = .error e) : e = .memory := by
  unfold allocate at h
  split at h <;> cases h
  rfl

theorem create_sound (h : create room = .ok t) : Sound room t ∧ entries t.slots = [] := by
  unfold create at h
  cases ha : allocate (K := K) (V := V) room 16 with
  | error e => rw [ha] at h; cases h
  | ok slots =>
    rw [ha] at h
    cases h
    obtain ⟨-,hroom,rfl⟩ := allocate_ok ha
    exact ⟨sound_empty ⟨4,rfl⟩ (by simpa using hroom) 0,entries_replicate⟩

theorem withCapacity_sound (h : withCapacity room c = .ok t) : Sound room t ∧ entries t.slots = [] := by
  unfold withCapacity at h
  cases hs : tableSizeFor c 16 with
  | error e => rw [hs] at h; cases h
  | ok size =>
    rw [hs] at h
    obtain ⟨k,rfl⟩ := tableSizeFor_doubled hs
    cases ha : allocate (K := K) (V := V) room (2 ^ k) with
    | error e =>
      simp only [bind,Except.bind,ha] at h
      cases h
    | ok slots =>
      simp only [bind,Except.bind,ha] at h
      cases h
      obtain ⟨-,hroom,rfl⟩ := allocate_ok ha
      rw [toNat_two_pow]
      exact ⟨sound_empty ⟨k,rfl⟩ (by exact_mod_cast hroom) 0,entries_replicate⟩

variable [EquivBEq K] [LawfulHashable K]

/-- A search finds the slot of the entry with the key, where there is one. -/
theorem find_spec (h : Sound room t) (key : K) :
    (∃ i k v, findSlot t.slots key = .ok (some i) ∧ slotAt t.slots i = .live k v ∧ k == key ∧
      lookup (entries t.slots) key = some v) ∨
      (findSlot t.slots key = .ok none ∧ lookup (entries t.slots) key = none) := by
  rcases findSlot_spec h.doubled h.chained h.exists_empty key with ⟨i,k,v,hf,hs,hk⟩ | ⟨hf,hnone⟩
  · refine .inl ⟨i,k,v,hf,hs,hk,?_⟩
    obtain ⟨a,b,he,-⟩ := entries_around hs
    have hd := h.distinct
    rw [he] at hd ⊢
    exact lookup_mid hd hk
  · refine .inr ⟨hf,lookup_none_iff.mpr fun ⟨k,v⟩ he => ?_⟩
    obtain ⟨i,hi⟩ := mem_entries.mp he
    exact hnone i k v hi

theorem get_spec (h : Sound room t) (key : K) : t.get key = .ok (lookup (entries t.slots) key) := by
  rcases find_spec h key with ⟨i,k,v,hf,hs,-,hl⟩ | ⟨hf,hl⟩
  · rw [Table.get,hf,hl]
    show Except.ok (valueAt t.slots i) = _
    rw [valueAt,hs]
    rfl
  · rw [Table.get,hf,hl]
    rfl

theorem contains_spec (h : Sound room t) (key : K) : t.contains key = .ok (lookup (entries t.slots) key).isSome := by
  rcases find_spec h key with ⟨i,k,v,hf,hs,-,hl⟩ | ⟨hf,hl⟩ <;> rw [Table.contains,hf,hl] <;> rfl

/-! ### Changing an entry -/

omit [LawfulHashable K] in
theorem write_spec (h : Sound room t) (value : V) (hs : slotAt t.slots i = .live k v) (hk : k == key) :
    Sound room (t.write i value) ∧ entries (t.write i value).slots = insert (entries t.slots) key value ∧
      (t.write i value).changes = t.changes := by
  obtain ⟨a,b,he,hset,-⟩ := entries_around hs
  have hw : t.write i value = { t with slots := t.slots.set i (.live k value) } := by rw [Table.write,hs]
  have hd := h.distinct
  have hins : entries (t.slots.set i (.live k value)) = insert (entries t.slots) key value := by
    rw [he] at hd ⊢
    rw [hset,insert_mid hd hk]
  have hlen : (entries (t.slots.set i (.live k value))).length = (entries t.slots).length := by
    rw [hset,he]
    simp
  have hlt := lt_of_live hs
  have hused : usedSlots (t.slots.set i (.live k value)) = usedSlots t.slots := by
    rw [usedSlots_set hlt rfl,hs]
    rfl
  rw [hw]
  refine ⟨⟨?_,?_,?_,?_,?_,h.chained.write hs,?_⟩,hins,rfl⟩
  · simpa [Doubled] using h.doubled
  · simpa using h.fits
  · exact h.count.trans (by rw [hlen])
  · exact h.used.trans (by rw [hused])
  · simpa [hused] using h.load
  · show Distinct (entries (t.slots.set i (.live k value)))
    rw [hins]
    exact h.distinct.insert

omit [LawfulHashable K] in
theorem removeSlot_spec (h : Sound room t) (hs : slotAt t.slots i = .live k v) (hk : k == key) :
    Sound room (t.removeSlot i) ∧ entries (t.removeSlot i).slots = erase (entries t.slots) key := by
  obtain ⟨a,b,he,-,hset⟩ := entries_around hs
  have hd := h.distinct
  have herase : entries (t.slots.set i .removed) = erase (entries t.slots) key := by
    rw [he] at hd ⊢
    rw [hset,erase_mid hd hk]
  have hlt := lt_of_live hs
  have hused : usedSlots (t.slots.set i .removed) = usedSlots t.slots := by
    rw [usedSlots_set hlt rfl,hs]
    rfl
  refine ⟨⟨?_,?_,?_,?_,?_,h.chained.remove,?_⟩,herase⟩
  · simpa [Doubled,Table.removeSlot] using h.doubled
  · simpa [Table.removeSlot] using h.fits
  · show t.count - 1 = (entries (t.slots.set i .removed)).length
    rw [h.count,hset,he]
    simp
    omega
  · exact h.used.trans (by rw [Table.removeSlot,hused])
  · simpa [Table.removeSlot,hused] using h.load
  · show Distinct (entries (t.slots.set i .removed))
    rw [herase]
    exact h.distinct.erase

/-! ### Placing an entry -/

/-- The operation returns a table whose entries are those of the list, or there is no memory. -/
def Gives (room : ℕ) (r : Except Stop (Table K V)) (es : List (K × V)) (changes : ℤ) : Prop :=
  r = .error .memory ∨ ∃ t, r = .ok t ∧ Sound room t ∧ (entries t.slots).Perm es ∧ t.changes = changes

omit [BEq K] [Hashable K] [EquivBEq K] [LawfulHashable K] in
theorem fresh_empty : Fresh (List.replicate n (.empty : Slot K V)) := by
  intro i hi
  rw [slotAt,List.getD_eq_getElem?_getD] at hi
  by_cases hin : i < n <;> simp [hin] at hi

omit [BEq K] [Hashable K] [EquivBEq K] [LawfulHashable K] in
theorem fresh_doubled (n : ℕ) : Doubled (List.replicate (2 ^ n) (.empty : Slot K V)) := ⟨n,List.length_replicate⟩

omit [LawfulHashable K] in
/-- A table rebuilt with a size that has room for one entry more. -/
theorem rebuild_spec (h : Sound room t) (hn : ((entries t.slots).length + 1) * 4 ≤ 2 ^ n * 3) :
    t.rebuild room (2 ^ n) = .error .memory ∨ ∃ t', t.rebuild room (2 ^ n) = .ok t' ∧ Sound room t' ∧
      (entries t'.slots).Perm (entries t.slots) ∧ t'.changes = t.changes ∧
      (usedSlots t'.slots + 1) * 4 ≤ t'.slots.length * 3 := by
  cases ha : allocate (K := K) (V := V) room (2 ^ n) with
  | error e =>
    obtain rfl := allocate_error ha
    exact .inl (by simp only [Table.rebuild,ha,bind,Except.bind])
  | ok fresh =>
    right
    obtain ⟨-,hle,rfl⟩ := allocate_ok ha
    rw [toNat_two_pow] at ha
    have hle : 2 ^ n ≤ room := by exact_mod_cast hle
    obtain ⟨slots,hmove,hlen,hchain,hfresh,hperm⟩ := moveAll_spec t.slots (fresh_doubled n)
      (chained_empty _) fresh_empty (by
        rw [entries_replicate,List.length_replicate,List.length_nil]
        omega)
    rw [entries_replicate,List.append_nil] at hperm
    rw [List.length_replicate] at hlen
    have hused : usedSlots slots = (entries t.slots).length := by rw [hfresh.used,hperm.length_eq]
    refine ⟨{ t with slots := slots, used := t.count },by simp only [Table.rebuild,ha,bind,Except.bind,hmove]; rfl,
      ⟨⟨n,hlen⟩,hlen.trans_le hle,?_,?_,?_,hchain,h.distinct.perm hperm.symm⟩,hperm,rfl,?_⟩
    · exact h.count.trans (by rw [hperm.length_eq])
    · exact h.count.trans (by rw [hused])
    · show usedSlots slots * 4 ≤ slots.length * 3
      omega
    · show (usedSlots slots + 1) * 4 ≤ slots.length * 3
      omega

omit [LawfulHashable K] in
theorem makeRoom_spec (hroom : room < 2 ^ 61) (h : Sound room t) : t.makeRoom room = .error .memory ∨
    ∃ t', t.makeRoom room = .ok t' ∧ Sound room t' ∧ (entries t'.slots).Perm (entries t.slots) ∧
      t'.changes = t.changes ∧ (usedSlots t'.slots + 1) * 4 ≤ t'.slots.length * 3 := by
  have hused := h.used
  unfold Table.makeRoom
  split
  · obtain ⟨m,hm⟩ := h.doubled
    have hfits := h.fits
    have hm61 : m ≤ 61 := by
      by_contra hlt
      have := Nat.pow_le_pow_right (n := 2) (by omega) (show 62 ≤ m by omega)
      omega
    have hcount := h.count
    have hload := h.load
    have hle : (entries t.slots).length ≤ usedSlots t.slots := entries_length_le
    have hsize : (t.slots.length : ℤ) = 2 ^ m := by rw [hm]; norm_cast
    obtain ⟨n,hn,-,hbig⟩ := tableSizeLoop_spec (c := t.count + 1) (m := m) 65 (by omega) (by omega) hm61 (by omega)
    have hfor : tableSizeFor (t.count + 1) t.slots.length = .ok (2 ^ n) := by rw [tableSizeFor,hsize,hn]
    rw [hfor]
    refine rebuild_spec h ?_
    rw [hcount] at hbig
    exact_mod_cast hbig
  · exact .inr ⟨t,rfl,h,List.Perm.refl _,rfl,by omega⟩

omit [LawfulHashable K] in
theorem place_ends (hroom : room < 2 ^ 61) (h : Sound room t) (key : K) (value : V) :
    t.place room key value ≠ .error .forever := by
  unfold Table.place
  rcases makeRoom_spec hroom h with he | ⟨t',he,h',-⟩
  · rw [he]
    nofun
  · obtain ⟨i,hi,hie⟩ := h'.exists_empty
    obtain ⟨d,hfree,-⟩ := freeSlot_spec h'.doubled ⟨i,hi,by rw [hie]; rfl⟩ key
    simp only [he,bind,Except.bind,hfree]
    nofun

omit [LawfulHashable K] in
theorem place_spec (hroom : room < 2 ^ 61) (h : Sound room t) (value : V) (habsent : lookup (entries t.slots) key = none) :
    Gives room (t.place room key value) (insert (entries t.slots) key value) (t.changes + 1) := by
  unfold Table.place
  rcases makeRoom_spec hroom h with he | ⟨t',he,h',hperm,hchanges,hload⟩
  · rw [he]
    exact .inl rfl
  · right
    obtain ⟨i,hi,hie⟩ := h'.exists_empty
    obtain ⟨d,hfree,hlive,hbefore⟩ := freeSlot_spec h'.doubled ⟨i,hi,by rw [hie]; rfl⟩ key
    have hlt := along_lt h'.doubled key d
    have hstore := entries_store (k := key) (v := value) hlt hlive
    have habsent' : lookup (entries t'.slots) key = none := by
      rw [lookup_perm h'.distinct hperm]
      exact habsent
    have hused := usedSlots_set (x := .live key value) hlt rfl
    refine ⟨_,by simp only [he,bind,Except.bind,hfree]; rfl,⟨?_,?_,?_,?_,?_,h'.chained.store hbefore,?_⟩,?_,by simp [hchanges]⟩
    · simpa [Doubled] using h'.doubled
    · simpa using h'.fits
    · show t'.count + 1 = (entries (t'.slots.set (along t'.slots key d) (.live key value))).length
      rw [hstore.length_eq,h'.count]
      simp
    · show (if (slotAt t'.slots (along t'.slots key d)).isEmpty then t'.used + 1 else t'.used) =
        usedSlots (t'.slots.set (along t'.slots key d) (.live key value))
      rw [hused,h'.used]
      split <;> simp
    · show usedSlots (t'.slots.set (along t'.slots key d) (.live key value)) * 4 ≤
        (t'.slots.set (along t'.slots key d) (.live key value)).length * 3
      rw [hused,List.length_set]
      split <;> omega
    · exact (h'.distinct.cons habsent').perm hstore.symm
    · rw [insert_absent habsent]
      exact hstore.trans (hperm.cons _)

/-! ### The operations -/

theorem set_spec (hroom : room < 2 ^ 61) (h : Sound room t) (key : K) (value : V) :
    Gives room (t.set room key value) (insert (entries t.slots) key value)
      (if (lookup (entries t.slots) key).isSome then t.changes else t.changes + 1) := by
  rcases find_spec h key with ⟨i,k,v,hf,hs,hk,hl⟩ | ⟨hf,hl⟩
  · obtain ⟨hsound,he,hc⟩ := write_spec h value hs hk
    refine .inr ⟨t.write i value,by rw [Table.set,hf]; rfl,hsound,he ▸ List.Perm.refl _,?_⟩
    rw [hc,hl]
    rfl
  · rw [Table.set,hf,hl]
    exact place_spec hroom h value hl

/-- What an operation that may stop for want of memory returns. -/
def Answers {R : Type} (room : ℕ) (r : Except Stop (R × Table K V)) (x : R) (es : List (K × V)) (changes : ℤ) : Prop :=
  r = .error .memory ∨ ∃ t, r = .ok (x,t) ∧ Sound room t ∧ (entries t.slots).Perm es ∧ t.changes = changes

theorem add_spec (hroom : room < 2 ^ 61) (h : Sound room t) (key : K) (value : V) :
    Answers room (t.add room key value) (lookup (entries t.slots) key).isNone
      (if (lookup (entries t.slots) key).isSome then entries t.slots else insert (entries t.slots) key value)
      (if (lookup (entries t.slots) key).isSome then t.changes else t.changes + 1) := by
  rcases find_spec h key with ⟨i,k,v,hf,hs,hk,hl⟩ | ⟨hf,hl⟩
  · exact .inr ⟨t,by rw [Table.add,hf,hl]; rfl,h,by rw [hl]; exact List.Perm.refl _,by rw [hl]; rfl⟩
  · rw [Table.add,hf,hl]
    rcases place_spec hroom h value hl with he | ⟨t',he,hrest⟩
    · exact .inl (by simp only [bind,Except.bind,he]; rfl)
    · exact .inr ⟨t',by simp only [bind,Except.bind,he]; rfl,hrest⟩

theorem remove_spec (h : Sound room t) (key : K) :
    Answers room (t.remove key) (lookup (entries t.slots) key).isSome (erase (entries t.slots) key)
      (if (lookup (entries t.slots) key).isSome then t.changes + 1 else t.changes) := by
  right
  rcases find_spec h key with ⟨i,k,v,hf,hs,hk,hl⟩ | ⟨hf,hl⟩
  · obtain ⟨hsound,he⟩ := removeSlot_spec h hs hk
    refine ⟨(t.removeSlot i).touch,by rw [Table.remove,hf,hl]; rfl,{ hsound with },he ▸ List.Perm.refl _,?_⟩
    rw [hl]
    rfl
  · refine ⟨t,by rw [Table.remove,hf,hl]; rfl,h,?_,by rw [hl]; rfl⟩
    rw [erase_absent hl]

omit [EquivBEq K] [LawfulHashable K] in
theorem clear_spec (h : Sound room t) : Sound room t.clear ∧ entries t.clear.slots = [] ∧
    t.clear.changes = if entries t.slots = [] then t.changes else t.changes + 1 := by
  have hcount := h.count
  unfold Table.clear
  split
  · have hnil : entries t.slots = [] := List.length_eq_zero_iff.mp (by omega)
    exact ⟨h,hnil,by rw [if_pos hnil]⟩
  · have hne : entries t.slots ≠ [] := by
      intro hnil
      rw [hnil] at hcount
      contradiction
    have hmap : t.slots.map (fun _ => (.empty : Slot K V)) = List.replicate t.slots.length .empty := List.map_const' ..
    rw [hmap]
    exact ⟨sound_empty h.doubled h.fits _,entries_replicate,by rw [if_neg hne]⟩

omit [EquivBEq K] [LawfulHashable K] in
theorem copy_spec (h : Sound room t) : ∃ t', t.copy room = .ok t' ∧ Sound room t' ∧ entries t'.slots = entries t.slots := by
  have hallocate : allocate (K := K) (V := V) room t.slots.length = .ok (List.replicate t.slots.length .empty) := by
    rw [allocate,if_pos ⟨by omega,by exact_mod_cast h.fits⟩]
    rfl
  have hslots : (List.replicate t.slots.length (.empty : Slot K V)).mapIdx (fun i _ => slotAt t.slots i) = t.slots := by
    refine List.ext_getElem (by simp) fun i hi hi' => ?_
    simp [slotAt,List.getD_eq_getElem?_getD,hi']
  refine ⟨{ t with changes := 0 },?_,{ h with },rfl⟩
  simp only [Table.copy,hallocate,bind,Except.bind]
  rw [hslots]
  rfl

end Ens.Collections.Map
