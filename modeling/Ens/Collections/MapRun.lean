import Ens.Collections.MapTable
import Ens.Logic.Exec

/-! # A hash map is a finite map

A run of a map beside a reference map, with the calls that wait for a callback. The two agree as long
as the entry a test of `removeWhere` accepts is still in its slot when the test answers, and no longer.
-/
set_option linter.all false
namespace Ens.Collections.Map
open Entries Exec
variable {K V : Type} [BEq K] [Hashable K]
variable {room fuel i j p : ℕ} {t t' : Table K V} {s u : State K V} {slots : List (Slot K V)} {k key : K} {v value : V}
variable {a : Action K V} {removed erased : ℤ} {fs : List (Frame K)}

def sure (s : State K V) : Action K V → Bool
  | .answer true =>
    match s.frames with
    | .test slot key _ _ :: _ =>
      match slotAt s.table.slots slot with
      | .live k _ => k == key
      | _ => false
    | _ => true
  | _ => true

/-- The map agrees with the reference map: in what it finds under each key, in its length, in what a
walk of it gives, and in what the last call returned. Its slots are a power of two, one of them is
empty, and placing an entry ends. -/
structure Agrees (room : ℕ) (s : State K V) : Prop where
  get : ∀ key, s.table.get key = .ok (lookup s.reference key)
  contains : ∀ key, s.table.contains key = .ok (lookup s.reference key).isSome
  length : s.table.count = s.reference.length
  distinct : Distinct s.reference
  walk : ∃ is, s.table.walk = some is ∧ (is.filterMap fun i => (slotAt s.table.slots i).entry).Perm s.reference
  returned : s.returned = s.expected
  doubled : Doubled s.table.slots
  empty : ∃ i < s.table.slots.length, slotAt s.table.slots i = .empty
  places : ∀ key value, s.table.place room key value ≠ .error .forever

/-! ### Walks -/

omit [BEq K] [Hashable K] in
theorem scan_none (h : scan slots i = none) : entries slots = [] := by
  induction slots generalizing i with
  | nil => rfl
  | cons x slots ih =>
    cases x with
    | live k v => cases h
    | _ => exact ih h

omit [BEq K] [Hashable K] in
theorem scan_some (h : scan slots i = some (j,k,v)) : ∃ a b, slots = a ++ .live k v :: b ∧ j = i + a.length ∧ entries a = [] := by
  induction slots generalizing i with
  | nil => cases h
  | cons x slots ih =>
    cases x with
    | live k' v' => cases h; exact ⟨[],slots,rfl,rfl,rfl⟩
    | empty | removed =>
      obtain ⟨a,b,rfl,rfl,ha⟩ := ih h
      exact ⟨_ :: a,b,rfl,by rw [List.length_cons]; omega,ha⟩

omit [BEq K] [Hashable K] in
/-- From a position on, a walk gives each entry behind it once and in order. -/
theorem rest_spec (hfuel : (entries (t.slots.drop p)).length < fuel) :
    ∃ is, SlotWalk.rest t fuel ⟨t.changes,p⟩ = some is ∧
      (is.filterMap fun i => (slotAt t.slots i).entry) = entries (t.slots.drop p) := by
  induction fuel generalizing p with
  | zero => omega
  | succ fuel ih =>
    rw [SlotWalk.rest,SlotWalk.nextSlot,if_neg (by simp)]
    cases hs : scan (t.slots.drop p) p with
    | none => exact ⟨[],rfl,(scan_none hs).symm⟩
    | some x =>
      obtain ⟨j,k,v⟩ := x
      obtain ⟨a,b,hdrop,rfl,ha⟩ := scan_some hs
      have hlive : slotAt t.slots (p + a.length) = .live k v := by
        have : (t.slots.drop p)[a.length]? = some (.live k v) := by rw [hdrop]; simp
        rw [List.getElem?_drop] at this
        rw [slotAt,List.getD_eq_getElem?_getD,this]
        rfl
      have hbehind : t.slots.drop (p + a.length + 1) = b := by
        rw [Nat.add_assoc,← List.drop_drop,hdrop]
        simp
      have hentries : entries (t.slots.drop p) = (k,v) :: entries b := by
        rw [hdrop,entries_append,ha]
        rfl
      rw [hentries,List.length_cons] at hfuel
      obtain ⟨is,hrest,his⟩ := ih (p := p + a.length + 1) (by rw [hbehind]; omega)
      refine ⟨(p + a.length) :: is,by simp [hrest],?_⟩
      rw [hentries,List.filterMap_cons,hlive,his,hbehind]
      rfl

omit [BEq K] [Hashable K] in
theorem walk_spec (t : Table K V) :
    ∃ is, t.walk = some is ∧ (is.filterMap fun i => (slotAt t.slots i).entry) = entries t.slots := by
  have hle : (entries t.slots).length ≤ t.slots.length := List.length_filterMap_le ..
  exact rest_spec (p := 0) (by rw [List.drop_zero]; omega)

/-! ### What a run keeps -/

/-- A call under way lost as many entries as the reference map, or waits for a value of a key that
is absent until the map changes. -/
def Waits (changes : ℤ) (reference : List (K × V)) : Frame K → Prop
  | .test _ _ removed erased => removed = erased
  | .make key before => before ≤ changes ∧ (changes = before → lookup reference key = none)

structure Inv (room : ℕ) (s : State K V) : Prop where
  sound : Sound room s.table
  same : (entries s.table.slots).Perm s.reference
  frames : ∀ f ∈ s.frames, Waits s.table.changes s.reference f
  returned : s.returned = s.expected

omit [Hashable K] in
theorem Waits.keep {c d : ℤ} {m l : List (K × V)} {f : Frame K} (h : Waits c m f) (hle : c ≤ d)
    (hkeys : d = c → ∀ key, lookup m key = none → lookup l key = none) : Waits d l f := by
  cases f with
  | test _ _ _ _ => exact h
  | make key before =>
    refine ⟨Int.le_trans h.1 hle,fun hd => ?_⟩
    have hdc : d = c := Int.le_antisymm (hd ▸ h.1) hle
    exact hkeys hdc key (h.2 (hdc ▸ hd))

variable [EquivBEq K] [LawfulHashable K]

omit [LawfulHashable K] in
theorem Inv.lookup (h : Inv room s) (key : K) : lookup (entries s.table.slots) key = lookup s.reference key :=
  lookup_perm h.sound.distinct h.same

theorem Inv.agrees (hroom : room < 2 ^ 61) (h : Inv room s) : Agrees room s where
  get key := by rw [get_spec h.sound,h.lookup]
  contains key := by rw [contains_spec h.sound,h.lookup]
  length := by rw [h.sound.count,h.same.length_eq]
  distinct := h.sound.distinct.perm h.same
  walk := by
    obtain ⟨is,hw,he⟩ := walk_spec s.table
    exact ⟨is,hw,he ▸ h.same⟩
  returned := h.returned
  doubled := h.sound.doubled
  empty := h.sound.exists_empty
  places := place_ends hroom h.sound

/-! ### One step -/

omit [BEq K] [Hashable K] [EquivBEq K] [LawfulHashable K] in
theorem toOption_some {E R : Type} {r : Except E R} {x : R} (h : r.toOption = some x) : r = .ok x := by
  cases r with
  | error e => cases h
  | ok y => cases h; rfl

omit [EquivBEq K] [LawfulHashable K] in
theorem gives_ok {r : Except Stop (Table K V)} {es : List (K × V)} {c : ℤ} (h : Gives room r es c) (hr : r.toOption = some t) :
    Sound room t ∧ (entries t.slots).Perm es ∧ t.changes = c := by
  rw [toOption_some hr] at h
  rcases h with h | ⟨t',he,hrest⟩
  · cases h
  · cases he
    exact hrest

omit [EquivBEq K] [LawfulHashable K] in
theorem answers_ok {R : Type} {r : Except Stop (R × Table K V)} {x y : R} {es : List (K × V)} {c : ℤ}
    (h : Answers room r x es c) (hr : r.toOption = some (y,t)) :
    y = x ∧ Sound room t ∧ (entries t.slots).Perm es ∧ t.changes = c := by
  rw [toOption_some hr] at h
  rcases h with h | ⟨t',he,hrest⟩
  · cases h
  · cases he
    exact ⟨rfl,hrest⟩

omit [Hashable K] [EquivBEq K] [LawfulHashable K] in
/-- Calls under way go on waiting when an operation stores a value. -/
theorem frames_insert {c d : ℤ} {m : List (K × V)} (h : ∀ f ∈ fs, Waits c m f)
    (hd : d = if (lookup m key).isSome then c else c + 1) : ∀ f ∈ fs, Waits d (insert m key value) f := by
  intro f hf
  cases hl : (lookup m key).isSome with
  | true =>
    rw [hl,if_pos rfl] at hd
    exact (h f hf).keep (by omega) fun _ j hj => lookup_insert_none hl hj
  | false =>
    rw [hl,if_neg Bool.false_ne_true] at hd
    exact (h f hf).keep (by omega) fun he => by omega

omit [EquivBEq K] [LawfulHashable K] in
/-- `removeWhere` goes on from a state that only its own frame has left. -/
theorem testFrom_inv (hs : Sound room s.table) (hsame : (entries s.table.slots).Perm s.reference)
    (hfs : ∀ f ∈ fs, Waits s.table.changes s.reference f) (he : removed = erased) :
    Inv room (s.testFrom i removed erased fs) := by
  subst he
  unfold State.testFrom
  split
  · refine ⟨hs,hsame,fun f hf => ?_,rfl⟩
    rcases List.mem_cons.mp hf with rfl | hf
    · exact rfl
    · exact hfs f hf
  · split
    · exact ⟨{ hs with },hsame,fun f hf => (hfs f hf).keep (by simp [Table.touch]) fun _ _ => id,rfl⟩
    · exact ⟨hs,hsame,hfs,rfl⟩

theorem step_inv (hroom : room < 2 ^ 61) (h : Inv room s) (hsure : sure s a) (hs : step room s a = some u) : Inv room u := by
  have hlook := h.lookup
  cases a with
  | set key value =>
    obtain ⟨t,ht,rfl⟩ := Option.map_eq_some_iff.mp hs
    obtain ⟨hsound,hperm,hc⟩ := gives_ok (set_spec hroom h.sound key value) ht
    refine ⟨hsound,hperm.trans (insert_perm h.same),frames_insert h.frames ?_,rfl⟩
    rw [← hlook]
    exact hc
  | add key value =>
    obtain ⟨⟨y,t⟩,ht,rfl⟩ := Option.map_eq_some_iff.mp hs
    obtain ⟨rfl,hsound,hperm,hc⟩ := answers_ok (add_spec hroom h.sound key value) ht
    rw [hlook] at hperm hc
    refine ⟨hsound,?_,?_,by rw [hlook]⟩
    · dsimp only
      split at hperm
      · rename_i hl
        rw [if_pos hl]
        exact hperm.trans h.same
      · rename_i hl
        rw [if_neg hl]
        exact hperm.trans (insert_perm h.same)
    · dsimp only
      cases hl : (lookup s.reference key).isSome with
      | true =>
        rw [hl,if_pos rfl] at hc
        exact hc ▸ h.frames
      | false => exact frames_insert h.frames (by rw [hl] at hc ⊢; exact hc)
  | remove key =>
    obtain ⟨⟨y,t⟩,ht,rfl⟩ := Option.map_eq_some_iff.mp hs
    obtain ⟨rfl,hsound,hperm,hc⟩ := answers_ok (remove_spec h.sound key) ht
    refine ⟨hsound,hperm.trans (erase_perm h.same),fun f hf => (h.frames f hf).keep ?_ fun _ j hj => lookup_erase_none hj,
      by rw [hlook]⟩
    show s.table.changes ≤ t.changes
    split at hc <;> omega
  | clear =>
    cases hs
    obtain ⟨hsound,hnil,hc⟩ := clear_spec h.sound
    refine ⟨hsound,by rw [hnil],fun f hf => (h.frames f hf).keep ?_ fun _ _ _ => rfl,rfl⟩
    show s.table.changes ≤ s.table.clear.changes
    split at hc <;> omega
  | copy =>
    obtain ⟨t,ht,rfl⟩ := Option.map_eq_some_iff.mp hs
    obtain ⟨t',he,hsound,hentries⟩ := copy_spec h.sound
    cases (toOption_some ht).symm.trans he
    exact ⟨hsound,hentries ▸ h.same,nofun,rfl⟩
  | removeWhere =>
    cases hs
    exact testFrom_inv h.sound h.same h.frames rfl
  | answer accepts =>
    simp only [step] at hs
    split at hs
    · rename_i slot key removed erased fs hframes
      have hfs : ∀ f ∈ fs, Waits s.table.changes s.reference f := fun f hf => h.frames f (by rw [hframes]; exact List.mem_cons_of_mem _ hf)
      have he : Waits s.table.changes s.reference (.test slot key removed erased) := h.frames _ (by rw [hframes]; exact List.mem_cons_self ..)
      split at hs
      · rename_i haccepts
        cases hs
        subst haccepts
        rw [sure,hframes] at hsure
        dsimp only at hsure
        cases hslot : slotAt s.table.slots slot with
        | live k v =>
          rw [hslot] at hsure
          obtain ⟨hsound,hentries⟩ := removeSlot_spec h.sound hslot hsure
          have hpresent : (lookup s.reference key).isSome := by
            rw [← hlook]
            obtain ⟨a,b,hab,-⟩ := entries_around hslot
            exact lookup_isSome_iff.mpr ⟨(k,v),by simp [hab],hsure⟩
          refine testFrom_inv hsound (hentries ▸ erase_perm h.same) (fun f hf => ?_) (by rw [if_pos hpresent,he])
          exact (hfs f hf).keep (Int.le_refl _) fun _ j hj => lookup_erase_none hj
        | _ => rw [hslot] at hsure; cases hsure
      · cases hs
        exact testFrom_inv h.sound h.same hfs he
    · cases hs
  | getOrInsert key =>
    obtain ⟨r,hr,rfl⟩ := Option.map_eq_some_iff.mp hs
    rcases find_spec h.sound key with ⟨i,k,v,hf,hslot,-,hl⟩ | ⟨hf,hl⟩
    · cases (toOption_some hr).symm.trans hf
      refine ⟨h.sound,h.same,h.frames,?_⟩
      dsimp only
      rw [← hlook,hl,valueAt,hslot]
      rfl
    · cases (toOption_some hr).symm.trans hf
      refine ⟨h.sound,h.same,fun f hf => ?_,rfl⟩
      rcases List.mem_cons.mp hf with rfl | hf
      · exact ⟨Int.le_refl _,fun _ => (hlook key).symm.trans hl⟩
      · exact h.frames f hf
  | made value =>
    simp only [step] at hs
    split at hs
    · rename_i key before fs hframes
      obtain ⟨t,ht,rfl⟩ := Option.map_eq_some_iff.mp hs
      have hfs : ∀ f ∈ fs, Waits s.table.changes s.reference f := fun f hf => h.frames f (by rw [hframes]; exact List.mem_cons_of_mem _ hf)
      obtain ⟨-,hwait⟩ : Waits s.table.changes s.reference (.make key before) :=
        h.frames _ (by rw [hframes]; exact List.mem_cons_self ..)
      split at ht
      · rename_i hsame
        have hl := hwait hsame
        obtain ⟨hsound,hperm,hc⟩ := gives_ok (place_spec hroom h.sound value ((hlook key).trans hl)) ht
        refine ⟨hsound,hperm.trans (insert_perm h.same),frames_insert hfs ?_,rfl⟩
        rw [hl]
        exact hc
      · obtain ⟨hsound,hperm,hc⟩ := gives_ok (set_spec hroom h.sound key value) ht
        refine ⟨hsound,hperm.trans (insert_perm h.same),frames_insert hfs ?_,rfl⟩
        rw [← hlook]
        exact hc
    · cases hs

/-! ### The slot of the accepted entry -/

omit [EquivBEq K] [LawfulHashable K] in
theorem get_congr (h : t.slots = t'.slots) (key : K) : t.get key = t'.get key := by
  rw [Table.get,Table.get,h]

omit [BEq K] [Hashable K] [EquivBEq K] [LawfulHashable K] in
theorem testFrom_same (s : State K V) : (s.testFrom i removed erased fs).table.slots = s.table.slots ∧
    (s.testFrom i removed erased fs).table.count = s.table.count ∧
    (s.testFrom i removed erased fs).reference = s.reference := by
  unfold State.testFrom
  split
  · exact ⟨rfl,rfl,rfl⟩
  · split <;> exact ⟨rfl,rfl,rfl⟩

/-- A slot without an entry loses one all the same: the length counts an entry less, and the key the
reference map lost is found in its other slot. -/
theorem lost_free (h : Inv room s) (hslot : (slotAt s.table.slots i).isLive = false)
    (hempty : ∃ j < (s.table.removeSlot i).slots.length, slotAt (s.table.removeSlot i).slots j = .empty)
    (hcount : (s.table.removeSlot i).count = (erase s.reference key).length) :
    (s.table.removeSlot i).get key ≠ .ok none := by
  have hold : s.table.count = s.reference.length := by rw [h.sound.count,h.same.length_eq]
  have hpresent : lookup s.reference key ≠ none := by
    intro hnone
    rw [erase_absent hnone,Table.removeSlot,hold] at hcount
    dsimp only at hcount
    omega
  rcases find_spec h.sound key with ⟨j,k,v,-,hs,hk,-⟩ | ⟨-,hl⟩
  · have hne : i ≠ j := by
      rintro rfl
      rw [hs] at hslot
      cases hslot
    have hkept : slotAt (s.table.removeSlot i).slots j = .live k v := (slotAt_set_ne hne).trans hs
    have hdoubled : Doubled (s.table.removeSlot i).slots := by simpa [Doubled,Table.removeSlot] using h.sound.doubled
    rcases findSlot_spec hdoubled h.sound.chained.remove hempty key with ⟨l,k',v',hf,hl,-⟩ | ⟨-,hnone⟩
    · rw [Table.get,hf]
      simp only [bind,Except.bind,valueAt,hl]
      rintro ⟨⟩
    · rw [hnone j k v hkept] at hk
      cases hk
  · exact absurd (h.lookup key ▸ hl) hpresent

theorem lost_other (h : Inv room s) (hslot : slotAt s.table.slots i = .live k v) (hk : (k == key) = false) :
    (s.table.removeSlot i).get k ≠ .ok (lookup (erase s.reference key) k) := by
  obtain ⟨hsound,hentries⟩ := removeSlot_spec h.sound hslot BEq.rfl
  obtain ⟨a,b,hab,-⟩ := entries_around hslot
  have hpresent : (lookup s.reference k).isSome := by
    rw [← h.lookup]
    exact lookup_isSome_iff.mpr ⟨(k,v),by simp [hab],BEq.rfl⟩
  rw [get_spec hsound,hentries,lookup_erase_self,lookup_erase_ne hk]
  intro he
  rw [← Except.ok.inj he] at hpresent
  cases hpresent

/-- After a slot that does not hold the key was emptied, the map and the reference map differ. -/
theorem lost (key : K) (h : Inv room s) (hslots : u.table.slots = (s.table.removeSlot i).slots)
    (hcount : u.table.count = (s.table.removeSlot i).count) (href : u.reference = erase s.reference key)
    (hslot : ∀ k v, slotAt s.table.slots i = .live k v → (k == key) = false) : ¬Agrees room u := by
  intro hagrees
  have hget (k : K) : (s.table.removeSlot i).get k = .ok (lookup (erase s.reference key) k) := by
    rw [← get_congr hslots,← href]
    exact hagrees.get k
  have hfree (hf : (slotAt s.table.slots i).isLive = false) : False := by
    refine lost_free h hf (hslots ▸ hagrees.empty) ?_ (by rw [hget key,lookup_erase_self])
    rw [← hcount,← href]
    exact hagrees.length
  cases hs : slotAt s.table.slots i with
  | live k v => exact lost_other h hs (hslot k v hs) (hget k)
  | empty => exact hfree (by rw [hs]; rfl)
  | removed => exact hfree (by rw [hs]; rfl)

theorem step_lost (h : Inv room s) (hsure : ¬sure s a) (hs : step room s a = some u) : ¬Agrees room u := by
  cases a with
  | answer accepts =>
    cases accepts with
    | false => exact absurd rfl hsure
    | true =>
      cases hframes : s.frames with
      | nil => rw [sure,hframes] at hsure; exact absurd rfl hsure
      | cons f fs =>
        cases f with
        | make key before => rw [sure,hframes] at hsure; exact absurd rfl hsure
        | test slot key removed erased =>
          rw [step,hframes] at hs
          cases hs
          refine lost (i := slot) key h (testFrom_same _).1 (testFrom_same _).2.1 (testFrom_same _).2.2 ?_
          intro k v hslot
          rw [sure,hframes] at hsure
          simpa [hslot] using hsure
  | _ => exact absurd rfl hsure

omit [EquivBEq K] [LawfulHashable K] in
theorem made_inv (ht : create room = .ok t ∨ ∃ c, withCapacity room c = .ok t) :
    Inv room { table := t : State K V } := by
  have hnew : Sound room t ∧ entries t.slots = [] := by
    rcases ht with ht | ⟨c,ht⟩
    · exact create_sound ht
    · exact withCapacity_sound ht
  exact ⟨hnew.1,by rw [hnew.2],nofun,rfl⟩

/-- From a new map on, the map agrees with the reference map in every state, if and only if each
entry a test of `removeWhere` accepts is in its slot still. -/
theorem map_agrees (hroom : room < 2 ^ 61) (ht : create room = .ok t ∨ ∃ c, withCapacity room c = .ok t)
    {as : List (Action K V)} (h : exec (step room) { table := t } as = some u) :
    HoldsAlong (step room) (Agrees room) { table := t } as ↔ StepsMeet (step room) (fun s a => sure s a) { table := t } as :=
  holdsAlong_iff_of_kept (made_inv ht) (fun _ hi => hi.agrees hroom) (fun _ _ _ => step_inv hroom)
    (fun _ _ _ => step_lost) h

/-- A test accepts an entry of a map of several keys, one `make` stores the key it was called for, and
another grows the map. -/
theorem map_agrees_callbacks : ∃ t : Table ℕ ℕ, create 64 = .ok t ∧
    HoldsAlong (step 64) (Agrees 64) { table := t }
      [.set 1 10,.set 17 20,.add 2 30,.removeWhere,.answer true,.set 33 50,.answer false,.answer false,
        .getOrInsert 5,.set 5 1,.made 2,.getOrInsert 6,.getOrInsert 7,.made 3,.made 4,.remove 17,.copy,.clear] := by
  refine ⟨_,rfl,?_⟩
  exact (map_agrees (u := _) (by decide) (.inl rfl) (Option.some_get (by decide)).symm).mpr (stepsMeet_of_checks (by decide))

/-- A test that removes its entry and accepts it leaves a length of less than nothing. -/
theorem removed_by_test : ∃ t : Table ℕ ℕ, create 64 = .ok t ∧
    ¬HoldsAlong (step 64) (Agrees 64) { table := t } [.set 1 10,.removeWhere,.remove 1,.answer true] := by
  refine ⟨_,rfl,fun h => ?_⟩
  have hlength := (h.last (Option.some_get (by decide)).symm).length
  exact absurd hlength (by decide)

end Ens.Collections.Map
