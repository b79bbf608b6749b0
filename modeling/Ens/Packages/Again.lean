import Ens.Packages.Settling

/-! # Resolving again with the lock just written

The second resolution starts at the versions the lock pins, so it never meets what only a version that
was superseded required. It comes to the same lock where every package the lock records is met by
following the manifests of the recorded versions.
-/
set_option linter.all false
namespace Ens.Packages
open Entries
variable {u u' : Universe} {co : Checkout} {lock : Lockfile} {c : Choice} {r x : Run} {s : Settled} {n : Str}
variable {k : ℕ} {t : Trail}

local instance lawfulName : LawfulBEq Str := inferInstance

/-! ### Following a lock -/

structure Trail where
  gathered : List Requirement := []
  pinned : List Str := []
  met : List Str := []

inductive Traced
  | all (met : List Str)
  | strays
  | endless
  deriving DecidableEq, Repr

def recordedBy (tree : Str → Tree) (co : Checkout) (lock : Lockfile) (c : Choice) : Brought :=
  match pinnedHere lock c with
  | some locked => fromTree co c (tree locked.content) locked.commit locked.content
  | none => unusable c

def Trail.pins (lock : Lockfile) (t : Trail) : List Requirement × List Str := addLockPins lock (t.gathered,t.pinned)

def Trail.choices (lock : Lockfile) (t : Trail) : List Choice := (select (t.pins lock).1).1

def Trail.fresh (lock : Lockfile) (t : Trail) : List Choice := (t.choices lock).filter fun c => c.name ∉ t.met

def Trail.next (tree : Str → Tree) (co : Checkout) (lock : Lockfile) (t : Trail) : Trail where
  gathered := (t.pins lock).1 ++ (t.fresh lock).flatMap fun c => (recordedBy tree co lock c).added
  pinned := (t.pins lock).2
  met := t.met ++ (t.fresh lock).map Choice.name

/-- Follows, from what the checkout requires, the manifests of the versions a lock records and no
others. It strays where a choice is not the one recorded. -/
def retrace (tree : Str → Tree) (co : Checkout) (lock : Lockfile) : ℕ → Trail → Traced
  | 0, _ => .endless
  | rounds + 1, t =>
    if (t.choices lock).all fun c => (pinnedHere lock c).isSome then
      if t.fresh lock = [] then .all t.met else retrace tree co lock rounds (t.next tree co lock)
    else .strays

def traced (tree : Str → Tree) (co : Checkout) (lock : Lockfile) : Traced :=
  retrace tree co lock 64 { gathered := (collectLocal co).1 }

/-- Every package a lock records is met by following the versions it records. -/
def Retraced (tree : Str → Tree) (co : Checkout) (lock : Lockfile) : Prop :=
  ∃ met, traced tree co lock = .all met ∧ ∀ p ∈ lock.packages, p.name ∈ met

structure Later (u u' : Universe) : Prop where
  cached : u'.cached = u.cached
  fetch : u'.fetch = u.fetch
  tree : u'.tree = u.tree
  stored : ∀ digest, u.stored digest → u'.stored digest

/-! ### What a lock records -/

theorem nodup_keys {m : List (Str × Settled)} (hd : Distinct m) : (m.map Prod.fst).Nodup :=
  (distinct_iff.mp hd).imp fun h => by simpa using h

theorem mem_sortedKeys {m : List (Str × Settled)} : n ∈ sortedKeys m ↔ (lookup m n).isSome := by
  rw [sortedKeys,List.mem_insertionSort,lookup_isSome_iff]
  simp

theorem sortedKeys_congr {m l : List (Str × Settled)} (hm : Distinct m) (hl : Distinct l)
    (h : ∀ n, (lookup m n).isSome = (lookup l n).isSome) : sortedKeys m = sortedKeys l := by
  have hperm : (m.map Prod.fst).Perm (l.map Prod.fst) := by
    refine (List.perm_ext_iff_of_nodup (nodup_keys hm) (nodup_keys hl)).mpr fun n => ?_
    have hiff := Bool.eq_iff_iff.mp (h n)
    rw [← mem_sortedKeys,← mem_sortedKeys] at hiff
    simpa [sortedKeys] using hiff
  refine List.Perm.eq_of_pairwise' (List.pairwise_insertionSort ..) (List.pairwise_insertionSort ..) ?_
  exact (List.perm_insertionSort ..).trans (hperm.trans (List.perm_insertionSort ..).symm)

theorem newLock_congr {m l : List (Str × Settled)} (hm : Distinct m) (hl : Distinct l) (h : ∀ n, lookup m n = lookup l n) :
    newLock co m = newLock co l := by
  rw [newLock,newLock,sortedKeys_congr hm hl fun n => by rw [h]]
  simp only [h]

theorem find_filterMap {l : List Str} {f : Str → Option LockPackage} (hf : ∀ m p, f m = some p → p.name = m) :
    (l.filterMap f).find? (fun p => p.name = n) = if n ∈ l then f n else none := by
  induction l with
  | nil => rfl
  | cons m l ih =>
    by_cases hm : m = n
    · subst hm
      cases h : f m with
      | none =>
        rw [List.filterMap_cons_none h,ih,if_pos (List.mem_cons_self ..)]
        split <;> simp [h]
      | some p =>
        rw [List.filterMap_cons_some h,List.find?_cons_of_pos (by simpa using hf m p h),if_pos (List.mem_cons_self ..)]
    · have hmem : n ∈ m :: l ↔ n ∈ l := by simp [Ne.symm hm]
      simp only [hmem]
      cases h : f m with
      | none => rw [List.filterMap_cons_none h,ih]
      | some p => rw [List.filterMap_cons_some h,List.find?_cons_of_neg (by simpa [hf m p h] using hm),ih]

theorem find_newLock {m : List (Str × Settled)} :
    (newLock co m).find n = ((lookup m n).filter Settled.usable).map (lockPackage n) := by
  have hname (j : Str) (p : LockPackage) (hp : ((lookup m j).filter Settled.usable).map (lockPackage j) = some p) : p.name = j := by
    obtain ⟨s,-,rfl⟩ := Option.map_eq_some_iff.mp hp
    rfl
  rw [Lockfile.find,newLock]
  dsimp only
  rw [find_filterMap hname]
  split
  · rfl
  · rename_i hn
    rw [mem_sortedKeys,Option.not_isSome_iff_eq_none] at hn
    rw [hn]
    rfl

theorem Entry.usable {g : List Requirement} (h : Entry u co g n s) : s.usable = true := by
  obtain ⟨c,commit,digest,b,-,hrec,hp,-,rfl,-⟩ := h
  rw [hrec.files] at hp ⊢
  exact (fromTree_settled hp).1

/-! ### The second resolution -/

theorem foldIn_lookup (x : Run) (batch : List (Choice × Brought)) (met : List Str) {m : List (Str × Settled)} (hd : Distinct x.settled)
    (hx : ∀ n, lookup x.settled n = if n ∈ met then lookup m n else none)
    (hb : ∀ b ∈ batch, lookup m b.1.name = some b.2.settled) : Distinct (foldIn x batch).settled ∧
      ∀ n, lookup (foldIn x batch).settled n = if n ∈ met ++ batch.map (fun b => b.1.name) then lookup m n else none := by
  induction batch generalizing x met with
  | nil => exact ⟨hd,by simpa [foldIn] using hx⟩
  | cons b batch ih =>
    rw [foldIn_cons]
    obtain ⟨hd',h⟩ := ih { x with settled := insert x.settled b.1.name b.2.settled, gathered := x.gathered ++ b.2.added }
      (met ++ [b.1.name]) hd.insert
      (fun n => by
        by_cases hn : n = b.1.name
        · subst hn
          rw [lookup_insert_self hd,if_pos (by simp),hb b (List.mem_cons_self ..)]
        · rw [lookup_insert_ne (by simpa using hn),hx]
          simp [hn])
      fun y hy => hb y (List.mem_cons_of_mem b hy)
    refine ⟨hd',fun n => ?_⟩
    rw [h,List.map_cons,List.append_assoc,List.singleton_append]

structure Follows (r x : Run) (t : Trail) : Prop where
  gathered : x.gathered = t.gathered
  pinned : x.pinned = t.pinned
  problems : x.problems = []
  distinct : Distinct x.settled
  settled : ∀ n, lookup x.settled n = if n ∈ t.met then lookup r.settled n else none
  backed : ∀ q ∈ x.gathered, Backed r.gathered q

section
variable (hr : Inv u co r) (ha : Agreed r.gathered) (hl : lock = newLock co r.settled) (hu : Later u u')
include hr hl

theorem find_recorded : lock.find n = (lookup r.settled n).map (lockPackage n) := by
  rw [hl,find_newLock]
  cases h : lookup r.settled n with
  | none => rfl
  | some s => rw [Option.filter_some_pos (hr.entries n s h).usable]

include hu in
/-- A choice the lock pins comes to what the first resolution recorded. -/
theorem bring_again (hp : (pinnedHere lock c).isSome) : bring u' co lock c = recordedBy u.tree co lock c ∧
    (bring u' co lock c).problem = none ∧ (bring u' co lock c).stated = [] ∧
    lookup r.settled c.name = some (bring u' co lock c).settled ∧ (bring u' co lock c).settled.version = c.version.written ∧
    ∀ q ∈ (bring u' co lock c).added, q ∈ r.gathered := by
  obtain ⟨locked,hlocked⟩ := Option.isSome_iff_exists.mp hp
  obtain ⟨hfind,hsame⟩ := Option.filter_eq_some_iff.mp hlocked
  obtain ⟨hv,hurl⟩ := of_decide_eq_true hsame
  rw [find_recorded hr hl] at hfind
  obtain ⟨s,hs,rfl⟩ := Option.map_eq_some_iff.mp hfind
  obtain ⟨d,commit,digest,b,hn,hrec,hb,hst,hset,hadd⟩ := hr.entries c.name s hs
  have hfields := fromTree_settled (hrec.files ▸ hb)
  rw [← hrec.files,hset] at hfields
  obtain ⟨-,hsv,hsu,hsc,hsd⟩ := hfields
  have hb' : b = fromTree co c (u.tree digest) commit digest := by
    rw [hrec.files]
    exact fromTree_congr hn (hsu.symm.trans hurl) (hsv.symm.trans hv)
  have hby : recordedBy u.tree co lock c = b := by
    rw [recordedBy,hlocked,hb']
    simp only [lockPackage,hsc,hsd]
  have hbring : bring u' co lock c = b := by
    have hc : u'.cached = true := hu.cached.trans hrec.cached
    by_cases hheld : u'.stored digest ∧ (u'.tree digest).survey.isSome
    · simp only [bring,hc,hlocked,lockPackage,hsc,hsd,if_pos hheld]
      rw [hb',hu.tree]
      rfl
    · have hfetch : u'.fetch c.name c.url c.version.written = some (commit,digest) := by
        rcases hrec.held with ⟨hstored,hsurvey⟩ | hf
        · exact absurd ⟨hu.stored _ hstored,by rwa [hu.tree]⟩ hheld
        · rw [hu.fetch,← hurl,← hv,← hn]
          dsimp only [lockPackage]
          rwa [hsu,hsv]
      simp only [bring,hc,hlocked,lockPackage,hsd,if_neg hheld,hfetch]
      rw [hb',hu.tree]
      simp
  rw [hbring]
  exact ⟨hby.symm,hb,hst,by rw [hs,hset],by rw [hset]; exact hv,hadd⟩

include ha hu

/-- One round of the second resolution, while every choice is the one recorded. -/
theorem Follows.round (hf : Follows r x t) (hall : ∀ c ∈ t.choices lock, (pinnedHere lock c).isSome) :
    (t.fresh lock = [] → bringEverything u' co lock (k + 1) x =
      { x with gathered := (t.pins lock).1, pinned := (t.pins lock).2 }) ∧
    (t.fresh lock ≠ [] → ∃ y, bringEverything u' co lock (k + 1) x = bringEverything u' co lock k y ∧
      Follows r y (t.next u.tree co lock)) := by
  have hpins : addLockPins lock (x.gathered,x.pinned) = t.pins lock := by
    rw [hf.gathered,hf.pinned]
    rfl
  have hback : ∀ q ∈ (t.pins lock).1, Backed r.gathered q := hpins ▸ addLockPins_backed hf.backed
  have hselect : (select (t.pins lock).1).2 = [] := select_agreed.mpr (ha.backed hback)
  have hout : outstanding x.settled (select (t.pins lock).1).1 = t.fresh lock := by
    refine List.filter_congr fun c hc => ?_
    obtain ⟨-,-,-,hs,hv,-⟩ := bring_again hr hl hu (hall c hc)
    rw [hf.settled]
    by_cases hm : c.name ∈ t.met
    · rw [if_pos hm,hs]
      simp [hm,hv]
    · rw [if_neg hm]
      simp [hm]
  have hfresh (c : Choice) (hc : c ∈ t.fresh lock) := bring_again hr hl hu (hall c (List.mem_filter.mp hc).1)
  rw [bringEverything]
  dsimp only
  rw [hpins,hselect,if_neg (not_not.mpr rfl)]
  rw [hout]
  refine ⟨fun hnil => ?_,fun hne => ?_⟩
  · rw [hnil]
    rfl
  · have hproblems : (t.fresh lock).filterMap (fun c => (bring u' co lock c).problem) = [] :=
      List.filterMap_eq_nil_iff.mpr fun c hc => (hfresh c hc).2.1
    have hstated : (t.fresh lock).flatMap (fun c => (bring u' co lock c).stated) = [] :=
      List.flatMap_eq_nil_iff.mpr fun c hc => (hfresh c hc).2.2.1
    have hadded : (t.fresh lock).flatMap (fun c => (bring u' co lock c).added) =
        (t.fresh lock).flatMap fun c => (recordedBy u.tree co lock c).added :=
      List.flatMap_congr fun c hc => by rw [(hfresh c hc).1]
    rw [if_neg (by simpa using hne)]
    simp only [List.flatMap_map,List.filterMap_map,hstated,hf.problems,Function.comp_def,hproblems]
    rw [if_neg (not_not.mpr rfl)]
    refine ⟨_,rfl,?_⟩
    obtain ⟨hg,hp,hq⟩ := foldIn_same { gathered := (t.pins lock).1, settled := x.settled, pinned := (t.pins lock).2 }
      ((t.fresh lock).map fun c => (c,bring u' co lock c))
    rw [List.flatMap_map] at hg
    obtain ⟨hd,hs⟩ := foldIn_lookup { gathered := (t.pins lock).1, settled := x.settled, pinned := (t.pins lock).2 }
      ((t.fresh lock).map fun c => (c,bring u' co lock c)) t.met hf.distinct hf.settled
      fun b hb => by
        obtain ⟨c,hc,rfl⟩ := List.mem_map.mp hb
        exact (hfresh c hc).2.2.2.1
    refine ⟨hg.trans (by rw [hadded]; rfl),hp,hq,hd,fun n => ?_,fun q hmem => ?_⟩
    · refine (hs n).trans ?_
      rw [List.map_map]
      rfl
    · rcases List.mem_append.mp (hg ▸ hmem) with hmem | hmem
      · exact hback q hmem
      · obtain ⟨c,hc,hmem⟩ := List.mem_flatMap.mp hmem
        exact Backed.refl ((hfresh c hc).2.2.2.2.2 q hmem)

/-- Where following the lock ends, the second resolution ends, with what the first one recorded of the
packages met. -/
theorem Follows.all {met : List Str} (hf : Follows r x t) (h : retrace u.tree co lock k t = .all met) :
    (bringEverything u' co lock k x).problems = [] ∧ Distinct (bringEverything u' co lock k x).settled ∧
      ∀ n, lookup (bringEverything u' co lock k x).settled n = if n ∈ met then lookup r.settled n else none := by
  induction k generalizing x t with
  | zero => cases h
  | succ k ih =>
    rw [retrace] at h
    split at h
    · rename_i hall
      obtain ⟨hlast,hmore⟩ := hf.round (k := k) hr ha hl hu (List.all_eq_true.mp hall)
      split at h
      · rename_i hnil
        cases h
        rw [hlast hnil]
        exact ⟨hf.problems,hf.distinct,hf.settled⟩
      · rename_i hne
        obtain ⟨y,hy,hfollows⟩ := hmore hne
        rw [hy]
        exact ih hfollows h
    · cases h

theorem Follows.endless (hf : Follows r x t) (h : retrace u.tree co lock k t = .endless) :
    (bringEverything u' co lock k x).problems ≠ [] := by
  induction k generalizing x t with
  | zero =>
    rw [bringEverything]
    simp
  | succ k ih =>
    rw [retrace] at h
    split at h
    · rename_i hall
      obtain ⟨-,hmore⟩ := hf.round (k := k) hr ha hl hu (List.all_eq_true.mp hall)
      split at h
      · cases h
      · rename_i hne
        obtain ⟨y,hy,hfollows⟩ := hmore hne
        rw [hy]
        exact ih hfollows h
    · cases h

end

/-! ### Two applications -/

def required (name version : Str) : Dependency := ⟨name,true,version,true,104 :: name⟩

def package (name : Str) (requirements : List Dependency) : Tree where
  survey := some ⟨true,false,name,[],requirements,[]⟩
  member _ := none

/-- Repositories of `a` at `1.0` and `1.1`, `b` at `1.0` and `c` at `1.0`. Of these only `a` at `1.0` requires `c`,
and `b` requires `a` at `1.1`. -/
def repositories : Universe where
  cached := true
  fetch name _ version :=
    if (name,version) ∈ [([97],[49,46,48]),([97],[49,46,49]),([98],[49,46,48]),([99],[49,46,48])] then
      some (version,name ++ version)
    else none
  stored _ := false
  tree digest :=
    if digest = [97,49,46,48] then package [97] [required [99] [49,46,48]]
    else if digest = [98,49,46,48] then package [98] [required [97] [49,46,49]]
    else package (digest.take 1) []

/-- An application that requires `a` at `1.0`, and `b` at `1.0` where it says so. -/
def application (both : Bool) : Checkout where
  root := package [120] (required [97] [49,46,48] :: if both then [required [98] [49,46,48]] else [])
  enclosing := []
  overrides := []

def recorded (name version : Str) (requirements : List (Str × Str)) : LockPackage :=
  ⟨name,version,104 :: name,version,name ++ version,requirements,[]⟩

def lockOfOne : Lockfile where
  rootName := [120]
  packages := [recorded [97] [49,46,48] [([99],[49,46,48])],recorded [99] [49,46,48] []]

/-- With `b`, `a` settles at `1.1`, and `c` stays. -/
def lockOfBoth : Lockfile where
  rootName := [120]
  packages := [recorded [97] [49,46,49] [],recorded [98] [49,46,48] [([97],[49,46,49])],recorded [99] [49,46,48] []]

/-! ### The same lock again -/

theorem find_isSome : (lock.find n).isSome ↔ ∃ p ∈ lock.packages, p.name = n := by
  rw [Lockfile.find,List.find?_isSome]
  simp

def settling (u : Universe) (co : Checkout) (previous : Option Lockfile) : Run :=
  bringEverything u co (previous.getD {}) 64 { gathered := (collectLocal co).1, problems := (collectLocal co).2 }

variable {previous : Option Lockfile} {locked again : Bool}

theorem resolve_ok (h : resolve u co previous locked = .ok (some lock)) : (settling u co previous).problems = [] ∧
    lock = newLock co (settling u co previous).settled ∧ lock.recordsAnything = true := by
  rw [resolve] at h
  change (if (settling u co previous).problems ≠ [] then _ else _) = _ at h
  split at h
  · cases h
  · rename_i hp
    refine ⟨not_not.mp hp,?_⟩
    change (if (!(newLock co (settling u co previous).settled).recordsAnything) = true then _ else _) = _ at h
    split at h
    · split at h <;> cases h
    · rename_i hrec
      have hlock : newLock co (settling u co previous).settled = lock := by
        split at h
        · cases h
          rfl
        · split at h
          · cases h
          · cases h
            rfl
      rw [← hlock]
      exact ⟨rfl,by simpa using hrec⟩

theorem resolve_same (hp : (settling u co (some lock)).problems = []) (hl : newLock co (settling u co (some lock)).settled = lock)
    (hrec : lock.recordsAnything = true) : resolve u co (some lock) again = .ok (some lock) := by
  rw [resolve]
  change (if (settling u co (some lock)).problems ≠ [] then _ else
    if (!(newLock co (settling u co (some lock)).settled).recordsAnything) = true then _ else
      if (Option.any (fun p => same p (newLock co (settling u co (some lock)).settled)) (some lock)) = true then
        Except.ok (some (newLock co (settling u co (some lock)).settled)) else _) = _
  rw [if_neg (not_not.mpr hp),hl,if_neg (by simp [hrec]),if_pos (by simp [same])]

end Ens.Packages
