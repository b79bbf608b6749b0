import Ens.Collections.MapRun
import Ens.Json.Equality

/-! # Equal frozen collections hash equally

The hash of a frozen map or set is a sum over its entries, so the order a walk gives them in does
not matter. Two maps that are equal hold the same entries, whatever made their tables, as long as no
key stands in two slots and the length counts the entries.
-/
set_option linter.all false
namespace Ens.Collections.Frozen
open Entries Map Exec
variable {K V T : Type}

/-! ### Lists -/

structure FrozenList (T : Type) where
  items : List T

def sameItems [BEq T] : List T → List T → Bool
  | x :: xs, y :: ys => x == y && sameItems xs ys
  | _, _ => true

instance [BEq T] : BEq (FrozenList T) where
  beq a b := a.items.length == b.items.length && sameItems a.items b.items

instance [Hashable T] : Hashable (FrozenList T) where
  hash a := a.items.foldl (fun combined value => combined * 31 + hash value) 17

theorem sameItems_iff [BEq T] {xs ys : List T} (h : xs.length = ys.length) :
    sameItems xs ys = true ↔ List.Forall₂ (fun x y => x == y) xs ys := by
  induction xs generalizing ys with
  | nil =>
    obtain rfl := List.length_eq_zero_iff.mp h.symm
    simp [sameItems]
  | cons x xs ih =>
    cases ys with
    | nil => cases h
    | cons y ys => simp [sameItems,ih (Nat.succ.inj h)]

theorem list_equals_iff [BEq T] {a b : FrozenList T} : a == b ↔ List.Forall₂ (fun x y => x == y) a.items b.items := by
  show (_ && _) = true ↔ _
  rw [Bool.and_eq_true_iff,beq_iff_eq]
  constructor
  · rintro ⟨hlen,hsame⟩
    exact (sameItems_iff hlen).mp hsame
  · intro h
    exact ⟨h.length_eq,(sameItems_iff h.length_eq).mpr h⟩

theorem forall₂_trans [BEq T] [EquivBEq T] {xs ys zs : List T} (h : List.Forall₂ (fun x y => x == y) xs ys)
    (h' : List.Forall₂ (fun x y => x == y) ys zs) : List.Forall₂ (fun x y => x == y) xs zs := by
  induction h generalizing zs with
  | nil => exact h'
  | cons hxy _ ih =>
    cases h' with
    | cons hyz h' => exact List.Forall₂.cons (BEq.trans hxy hyz) (ih h')

instance [BEq T] [EquivBEq T] : EquivBEq (FrozenList T) where
  rfl := list_equals_iff.mpr (List.forall₂_same.mpr fun _ _ => BEq.rfl)
  symm h := list_equals_iff.mpr ((list_equals_iff.mp h).flip.imp fun _ _ hxy => BEq.symm hxy)
  trans h h' := list_equals_iff.mpr (forall₂_trans (list_equals_iff.mp h) (list_equals_iff.mp h'))

theorem fold_hash_eq [BEq T] [Hashable T] [LawfulHashable T] {xs ys : List T} (h : List.Forall₂ (fun x y => x == y) xs ys)
    (c : UInt64) : xs.foldl (fun c x => c * 31 + hash x) c = ys.foldl (fun c x => c * 31 + hash x) c := by
  induction h generalizing c with
  | nil => rfl
  | cons hxy _ ih =>
    rw [List.foldl_cons,List.foldl_cons,hash_eq hxy]
    exact ih _

instance [BEq T] [Hashable T] [LawfulHashable T] : LawfulHashable (FrozenList T) where
  hash_eq _ _ h := fold_hash_eq (list_equals_iff.mp h) 17

/-! ### Maps and sets -/

section
variable [BEq K] [Hashable K]

def walked (t : Table K V) : List (K × V) := (t.walk.getD []).filterMap fun i => (slotAt t.slots i).entry

def entriesIn [BEq V] (other : Table K V) : List (K × V) → Except Map.Stop Bool
  | [] => return true
  | (key,value) :: rest => do
    match ← other.get key with
    | some found => if found == value then entriesIn other rest else return false
    | none => return false

def mapEquals [BEq V] (t other : Table K V) : Except Map.Stop Bool :=
  if t.count = other.count then entriesIn other (walked t) else return false

def mapHash [Hashable V] (t : Table K V) : UInt64 :=
  (walked t).foldl (fun combined e => combined + (hash e.1 * 31 ^^^ hash e.2)) 0

def valuesIn (other : Table K Bool) : List K → Except Map.Stop Bool
  | [] => return true
  | value :: rest => do
    if ← other.contains value then valuesIn other rest else return false

def setEquals (t other : Table K Bool) : Except Map.Stop Bool :=
  if t.count = other.count then valuesIn other ((walked t).map Prod.fst) else return false

def setHash (t : Table K Bool) : UInt64 :=
  ((walked t).map Prod.fst).foldl (fun combined value => combined + hash value) 0

omit [BEq K] [Hashable K] in
theorem walked_eq (t : Table K V) : walked t = entries t.slots := by
  obtain ⟨is,hw,he⟩ := walk_spec t
  rw [walked,hw]
  exact he

theorem fold_add_perm {E : Type} (w : E → UInt64) {es ds : List E} (h : es.Perm ds) (c : UInt64) :
    es.foldl (fun c e => c + w e) c = ds.foldl (fun c e => c + w e) c :=
  h.foldl_eq' (fun x _ y _ c => by rw [UInt64.add_assoc,UInt64.add_comm (w x),← UInt64.add_assoc]) c

theorem fold_add_matching {E D : Type} (w : E → UInt64) (w' : D → UInt64) {es : List E} {ds : List D}
    (h : List.Forall₂ (fun e d => w e = w' d) es ds) (c : UInt64) :
    es.foldl (fun c e => c + w e) c = ds.foldl (fun c d => c + w' d) c := by
  induction h generalizing c with
  | nil => rfl
  | cons he _ ih =>
    rw [List.foldl_cons,List.foldl_cons,he]
    exact ih _

variable [EquivBEq K] [LawfulHashable K] {room room' : ℕ} {t u : Table K V}

theorem entriesIn_iff [BEq V] (h : Sound room u) {es : List (K × V)} :
    entriesIn u es = .ok true ↔ ∀ e ∈ es, ∃ v, lookup (entries u.slots) e.1 = some v ∧ v == e.2 := by
  induction es with
  | nil => simp [entriesIn,pure,Except.pure]
  | cons e es ih =>
    rw [entriesIn,get_spec h]
    cases hl : lookup (entries u.slots) e.1 with
    | none => simp [hl,bind,Except.bind,pure,Except.pure]
    | some v =>
      by_cases hv : v == e.2
      · simp [hl,hv,bind,Except.bind,ih]
      · simp [hl,hv,bind,Except.bind,pure,Except.pure]

theorem valuesIn_iff {u : Table K Bool} (h : Sound room u) {ks : List K} :
    valuesIn u ks = .ok true ↔ ∀ k ∈ ks, (lookup (entries u.slots) k).isSome := by
  induction ks with
  | nil => simp [valuesIn,pure,Except.pure]
  | cons k ks ih =>
    rw [valuesIn,contains_spec h]
    cases hl : (lookup (entries u.slots) k).isSome with
    | false => simp [hl,bind,Except.bind,pure,Except.pure]
    | true => simp [hl,bind,Except.bind,ih]

theorem mapEquals_iff [BEq V] (ht : Sound room t) (hu : Sound room' u) : mapEquals t u = .ok true ↔
    (entries t.slots).length = (entries u.slots).length ∧
      ∀ e ∈ entries t.slots, ∃ v, lookup (entries u.slots) e.1 = some v ∧ v == e.2 := by
  rw [mapEquals,ht.count,hu.count,walked_eq]
  split
  · rename_i hcount
    rw [entriesIn_iff hu]
    exact (and_iff_right (by omega)).symm
  · rename_i hcount
    exact iff_of_false nofun fun h => hcount (by rw [h.1])

theorem mapEquals_matching [BEq V] (ht : Sound room t) (hu : Sound room' u) (h : mapEquals t u = .ok true) :
    ∃ es, es.Perm (entries u.slots) ∧ List.Forall₂ (fun e d => d.1 == e.1 ∧ d.2 == e.2) (entries t.slots) es := by
  obtain ⟨hlen,hin⟩ := (mapEquals_iff ht hu).mp h
  exact exists_matching (R := fun v w => w == v) ht.distinct hu.distinct hlen hin

theorem mapHash_eq [BEq V] [Hashable V] [LawfulHashable V] (ht : Sound room t) (hu : Sound room' u)
    (h : mapEquals t u = .ok true) : mapHash t = mapHash u := by
  obtain ⟨es,hperm,hall⟩ := mapEquals_matching ht hu h
  rw [mapHash,mapHash,walked_eq,walked_eq,← fold_add_perm _ hperm]
  refine fold_add_matching _ _ (hall.imp fun e d hed => ?_) 0
  rw [hash_eq hed.1,hash_eq hed.2]

theorem setEquals_iff {t u : Table K Bool} (ht : Sound room t) (hu : Sound room' u) : setEquals t u = .ok true ↔
    (entries t.slots).length = (entries u.slots).length ∧
      ∀ e ∈ entries t.slots, ∃ v, lookup (entries u.slots) e.1 = some v ∧ True := by
  have hin : (∀ k ∈ (entries t.slots).map Prod.fst, (lookup (entries u.slots) k).isSome) ↔
      ∀ e ∈ entries t.slots, ∃ v, lookup (entries u.slots) e.1 = some v ∧ True := by
    rw [List.forall_mem_map]
    refine forall₂_congr fun e _ => Option.isSome_iff_exists.trans ?_
    exact exists_congr fun _ => (and_iff_left trivial).symm
  rw [setEquals,ht.count,hu.count,walked_eq]
  split
  · rename_i hcount
    rw [valuesIn_iff hu,hin]
    exact (and_iff_right (by omega)).symm
  · rename_i hcount
    exact iff_of_false nofun fun h => hcount (by rw [h.1])

theorem setHash_eq {t u : Table K Bool} (ht : Sound room t) (hu : Sound room' u) (h : setEquals t u = .ok true) :
    setHash t = setHash u := by
  obtain ⟨hlen,hin⟩ := (setEquals_iff ht hu).mp h
  obtain ⟨es,hperm,hall⟩ := exists_matching (R := fun _ _ => True) ht.distinct hu.distinct hlen hin
  rw [setHash,setHash,walked_eq,walked_eq,List.foldl_map,List.foldl_map,← fold_add_perm _ hperm]
  refine fold_add_matching (fun e : K × Bool => hash e.1) (fun d => hash d.1) (hall.imp fun e d hed => ?_) 0
  exact (hash_eq hed.1).symm

/-! ### Frozen maps as keys and values of other collections -/

structure FrozenMap (K V : Type) [BEq K] [Hashable K] where
  entries : Table K V
  sound : ∃ room, Sound room entries

instance [BEq V] : BEq (FrozenMap K V) where
  beq a b := (mapEquals a.entries b.entries).toOption.getD false

instance [Hashable V] : Hashable (FrozenMap K V) where
  hash a := mapHash a.entries

omit [EquivBEq K] [LawfulHashable K] in
theorem map_beq_iff [BEq V] {a b : FrozenMap K V} : a == b ↔ mapEquals a.entries b.entries = .ok true := by
  show (mapEquals a.entries b.entries).toOption.getD false = true ↔ _
  cases mapEquals a.entries b.entries <;> simp [Except.toOption]
instance [BEq V] [Hashable V] [LawfulHashable V] : LawfulHashable (FrozenMap K V) where
  hash_eq a b h := by
    obtain ⟨_,ha⟩ := a.sound
    obtain ⟨_,hb⟩ := b.sound
    exact mapHash_eq ha hb (map_beq_iff.mp h)

instance [BEq V] [EquivBEq V] : EquivBEq (FrozenMap K V) where
  rfl := by
    intro a
    obtain ⟨_,ha⟩ := a.sound
    exact map_beq_iff.mpr ((mapEquals_iff ha ha).mpr ⟨rfl,fun e he => ⟨e.2,lookup_of_mem ha.distinct he BEq.rfl,BEq.rfl⟩⟩)
  symm := by
    intro a b h
    obtain ⟨_,ha⟩ := a.sound
    obtain ⟨_,hb⟩ := b.sound
    obtain ⟨es,hperm,hall⟩ := mapEquals_matching ha hb (map_beq_iff.mp h)
    refine map_beq_iff.mpr ((mapEquals_iff hb ha).mpr ⟨hperm.length_eq.symm.trans hall.length_eq.symm,fun d hd => ?_⟩)
    obtain ⟨i,hi,rfl⟩ := List.mem_iff_getElem.mp (hperm.mem_iff.mpr hd)
    obtain ⟨hkey,hvalue⟩ := hall.get (by rw [hall.length_eq]; exact hi) hi
    exact ⟨_,lookup_of_mem ha.distinct (List.getElem_mem _) (BEq.symm hkey),BEq.symm hvalue⟩
  trans := by
    intro a b c hab hbc
    obtain ⟨_,ha⟩ := a.sound
    obtain ⟨_,hb⟩ := b.sound
    obtain ⟨_,hc⟩ := c.sound
    obtain ⟨hlen,hin⟩ := (mapEquals_iff ha hb).mp (map_beq_iff.mp hab)
    obtain ⟨hlen',hin'⟩ := (mapEquals_iff hb hc).mp (map_beq_iff.mp hbc)
    refine map_beq_iff.mpr ((mapEquals_iff ha hc).mpr ⟨hlen.trans hlen',fun e he => ?_⟩)
    obtain ⟨v,hv,hve⟩ := hin e he
    obtain ⟨j,hj,hje⟩ := exists_of_lookup hb.distinct hv
    obtain ⟨w,hw,hwv⟩ := hin' (j,v) hj
    exact ⟨w,(lookup_congr hc.distinct hje).symm.trans hw,BEq.trans hwv hve⟩

end

/-! ### Collections with a history -/

/-- A table that some calls on a new map leave, each of which meets a condition. -/
def Made [BEq K] [Hashable K] (C : State K V → Action K V → Prop) (t : Table K V) : Prop :=
  ∃ room t₀ as s, room < 2 ^ 61 ∧ (create room = .ok t₀ ∨ ∃ c, withCapacity room c = .ok t₀) ∧
    exec (step room) { table := t₀ } as = some s ∧ StepsMeet (step room) C { table := t₀ } as ∧ s.table = t

section
variable [BEq K] [Hashable K] [EquivBEq K] [LawfulHashable K]

theorem Made.sound {t : Table K V} (h : Made (fun s a => sure s a) t) : ∃ room, Sound room t := by
  obtain ⟨room,t₀,as,s,hroom,hnew,hrun,hsure,rfl⟩ := h
  have hinv := holdsAlong_of_stepsMeet (made_inv hnew) (fun _ _ _ => step_inv hroom) hsure
  exact ⟨room,(hinv.last hrun).sound⟩

/-- Frozen maps, sets and lists and JSON values that are equal hash equally whatever their history, as
long as each entry a test of `removeWhere` accepts is in its slot still. -/
theorem equals_hash [BEq V] [Hashable V] [LawfulHashable V] :
    (∀ t u : Table K V, Made (fun s a => sure s a) t → Made (fun s a => sure s a) u →
      mapEquals t u = .ok true → mapHash t = mapHash u) ∧
    (∀ t u : Table K Bool, Made (fun s a => sure s a) t → Made (fun s a => sure s a) u →
      setEquals t u = .ok true → setHash t = setHash u) ∧
    (∀ a b : FrozenList V, a == b → hash a = hash b) ∧
    ∀ v w : Json, v.Built → w.Built → v.equals w = true → v.hash = w.hash := by
  refine ⟨fun t u ht hu h => ?_,fun t u ht hu h => ?_,fun _ _ => hash_eq,fun _ _ => Json.hash_eq⟩
  · obtain ⟨_,ht⟩ := ht.sound
    obtain ⟨_,hu⟩ := hu.sound
    exact mapHash_eq ht hu h
  · obtain ⟨_,ht⟩ := ht.sound
    obtain ⟨_,hu⟩ := hu.sound
    exact setHash_eq ht hu h

end

/-- Two maps that walk their entries in other orders. -/
theorem equals_hash_orders : ∃ t u : Table ℕ ℕ, Made (fun s a => sure s a) t ∧ Made (fun s a => sure s a) u ∧
    walked t ≠ walked u ∧ mapEquals t u = .ok true ∧ mapHash t = mapHash u := by
  have ht : Made (fun s a => sure s a) _ := ⟨64,_,[.set 1 10,.set 17 20,.set 1 30],_,by decide,.inl rfl,
    (Option.some_get (by decide)).symm,stepsMeet_of_checks (by decide),rfl⟩
  have hu : Made (fun s a => sure s a) _ := ⟨64,_,[.add 17 20,.set 2 20,.add 1 30,.remove 2],_,by decide,.inl rfl,
    (Option.some_get (by decide)).symm,stepsMeet_of_checks (by decide),rfl⟩
  exact ⟨_,_,ht,hu,by decide,by decide,equals_hash.1 _ _ ht hu (by decide)⟩

/-- A test that removes its entry and accepts it leaves a map of two entries with the length of one,
which compares equal to a map of one of them. -/
theorem removed_by_test_equals : ∃ t u : Table ℕ ℕ, Made (fun _ _ => True) t ∧ Made (fun _ _ => True) u ∧
    mapEquals t u = .ok true ∧ mapHash t ≠ mapHash u := by
  refine ⟨_,_,⟨64,_,[.set 2 20],_,by decide,.inl rfl,(Option.some_get (by decide)).symm,fun _ _ _ _ _ => trivial,rfl⟩,
    ⟨64,_,[.set 1 10,.set 2 20,.set 3 30,.removeWhere,.remove 1,.answer true,.answer false,.answer false],_,by decide,
      .inl rfl,(Option.some_get (by decide)).symm,fun _ _ _ _ _ => trivial,rfl⟩,by decide,by decide⟩

end Ens.Collections.Frozen
