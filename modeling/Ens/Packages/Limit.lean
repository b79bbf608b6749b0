import Ens.Packages.Stages
import Mathlib.Data.Finset.Card

/-! # How many rounds a resolution takes

A round that goes on settles a package for the first time, or at a higher version than before, and a finite universe
has finitely many of both. So the rounds end, but not within a fixed limit.
-/
set_option linter.all false
namespace Ens.Packages
open Entries
variable {u : Universe} {co : Checkout} {previous : Lockfile} {r : Run} {g : List Requirement} {n : Str} {q : Requirement}
variable {c : Choice} {v : Version} {s : Settled} {t : Tree} {commit digest : Str} {ds : List Str}

/-! ### What is required -/

theorem parsed_written {text : Str} (h : parsed text = some v) : v.written = text := by
  unfold parsed at h
  split at h
  · cases h
  · obtain ⟨parts,-,rfl⟩ := Option.map_eq_some_iff.mp h
    rfl

/-- A requirement's version is one a manifest or a lock spells. -/
def Spelled (q : Requirement) : Prop := parsed q.version.written = some q.version

theorem requirementOf_spelled {d : Dependency} (h : (requirementOf d).1 = some q) : Spelled q := by
  unfold requirementOf at h
  split at h
  · rename_i v hv
    cases h
    rw [Spelled,parsed_written hv]
    exact hv
  · cases h

theorem requirementsOf_spelled {l : List Dependency} (h : q ∈ (requirementsOf l).1) : Spelled q := by
  obtain ⟨d,-,hd⟩ := List.mem_filterMap.mp h
  exact requirementOf_spelled hd

def treeRequirements (t : Tree) : List Requirement :=
  match t.survey with
  | none => []
  | some s => ((s :: s.members.filterMap t.member).flatMap Survey.requirements).filterMap fun d => (requirementOf d).1

theorem fromTree_added (h : q ∈ (fromTree co c t commit digest).added) : q ∈ treeRequirements t := by
  have hprovided {names : List Str} {m s : Survey} (ht : t.survey = some s) (hm : m = s ∨ m ∈ s.members.filterMap t.member)
      (hq : q ∈ (provided co c commit digest names m).added) : q ∈ treeRequirements t := by
    obtain ⟨d,hd,hdq⟩ := List.mem_filterMap.mp hq
    have hd := (List.mem_filter.mp (List.mem_filter.mp hd).1).1
    rw [treeRequirements,ht]
    exact List.mem_filterMap.mpr ⟨d,List.mem_flatMap.mpr ⟨m,List.mem_cons.mpr hm,hd⟩,hdq⟩
  unfold fromTree at h
  split at h
  · cases h
  · rename_i s ht
    split at h
    · split at h
      · cases h
      · exact hprovided ht (.inl rfl) h
    · split at h
      · split at h
        · rename_i m hm
          have hmem := List.mem_of_getLast? hm
          exact hprovided ht (.inr (List.mem_filter.mp (List.mem_filter.mp hmem).1).1) h
        · cases h
      · cases h

theorem fetched_cases {u : Universe} {co : Checkout} {previous : Lockfile} {c : Choice} (expected : Option LockPackage)
    (hb : bring u co previous c = (match u.fetch c.name c.url c.version.written with
      | none => unusable c
      | some (commit,digest) =>
        if expected.any fun locked => locked.content ≠ digest then unusable c
        else fromTree co c (u.tree digest) commit digest)) :
    bring u co previous c = unusable c ∨ ∃ commit digest, bring u co previous c = fromTree co c (u.tree digest) commit digest := by
  split at hb
  · exact .inl hb
  · split at hb
    · exact .inl hb
    · exact .inr ⟨_,_,hb⟩

theorem bring_cases (u : Universe) (co : Checkout) (previous : Lockfile) (c : Choice) : bring u co previous c = unusable c ∨
    ∃ commit digest, bring u co previous c = fromTree co c (u.tree digest) commit digest := by
  cases hc : u.cached with
  | false => exact .inl (by simp only [bring,hc]; rfl)
  | true =>
    cases hp : pinnedHere previous c with
    | none => exact fetched_cases none (by simp only [bring,hc,hp]; rfl)
    | some locked =>
      by_cases hs : u.stored locked.content ∧ (u.tree locked.content).survey.isSome
      · exact .inr ⟨locked.commit,locked.content,by simp only [bring,hc,hp,if_pos hs]; rfl⟩
      · exact fetched_cases (some locked) (by simp only [bring,hc,hp,if_neg hs]; rfl)

theorem fromTree_version : (fromTree co c t commit digest).settled.version = c.version.written := by
  unfold fromTree
  split
  · rfl
  · split
    · split <;> rfl
    · split
      · split <;> rfl
      · rfl

theorem bring_version : (bring u co previous c).settled.version = c.version.written := by
  rcases bring_cases u co previous c with h | ⟨commit,digest,h⟩
  · rw [h]
    rfl
  · rw [h]
    exact fromTree_version

theorem fromTree_url : (fromTree co c t commit digest).settled.url = c.url := by
  unfold fromTree
  split
  · rfl
  · split
    · split <;> rfl
    · split
      · split <;> rfl
      · rfl

theorem bring_url : (bring u co previous c).settled.url = c.url := by
  rcases bring_cases u co previous c with h | ⟨commit,digest,h⟩
  · rw [h]
    rfl
  · rw [h]
    exact fromTree_url

theorem bring_added (h : q ∈ (bring u co previous c).added) : ∃ digest, q ∈ treeRequirements (u.tree digest) := by
  rcases bring_cases u co previous c with hb | ⟨commit,digest,hb⟩
  · rw [hb] at h
    cases h
  · rw [hb] at h
    exact ⟨digest,fromTree_added h⟩

theorem pin_mem (h : pin previous g n = some q) : ∃ p ∈ previous.packages, p.name = n ∧ q.name = n ∧ q.url = p.url ∧
    parsed p.version = some q.version := by
  unfold pin at h
  split at h
  · cases h
  · dsimp only at h
    split at h
    · cases h
    · split at h
      · cases h
      · rename_i p hp
        split at h
        · cases h
        · rename_i hu
          split at h
          · cases h
          · rename_i v hv
            split at h
            · cases h
              exact ⟨p,List.mem_of_find?_eq_some hp,by simpa using List.find?_some hp,rfl,(not_not.mp hu).symm,hv⟩
            · cases h

theorem addLockPins_gathered (x : List Requirement × List Str) : ∃ pins, (addLockPins previous x).1 = x.1 ++ pins ∧
    ∀ q ∈ pins, ∃ g n, pin previous g n = some q := by
  have hfold (ns : List Str) (y : List Requirement × List Str) : ∃ pins, (ns.foldl (pinOne previous) y).1 = y.1 ++ pins ∧
      ∀ q ∈ pins, ∃ g n, pin previous g n = some q := by
    induction ns generalizing y with
    | nil => exact ⟨[],(List.append_nil _).symm,nofun⟩
    | cons n ns ih =>
      obtain ⟨pins,hp,hall⟩ := ih (pinOne previous y n)
      rw [List.foldl_cons,hp]
      unfold pinOne
      split
      · exact ⟨pins,rfl,hall⟩
      · refine ⟨(pin previous y.1 n).toList ++ pins,List.append_assoc ..,fun q hq => ?_⟩
        rcases List.mem_append.mp hq with hq | hq
        · exact ⟨y.1,n,Option.mem_toList.mp hq⟩
        · exact hall q hq
  exact hfold _ x

/-! ### A finite universe -/

/-- Only some digests are those of files with a manifest. -/
def Universe.Within (u : Universe) (ds : List Str) : Prop := ∀ d ∉ ds, (u.tree d).survey = none

def possible (u : Universe) (co : Checkout) (previous : Lockfile) (ds : List Str) : List Requirement :=
  (collectLocal co).1 ++ (previous.packages.filterMap fun p => (parsed p.version).map fun v => (⟨p.name,v,p.url⟩ : Requirement)) ++
    ds.flatMap fun d => treeRequirements (u.tree d)

theorem treeRequirements_possible (hu : u.Within ds) (h : q ∈ treeRequirements (u.tree digest)) : q ∈ possible u co previous ds := by
  by_cases hd : digest ∈ ds
  · exact List.mem_append_right _ (List.mem_flatMap.mpr ⟨digest,hd,h⟩)
  · rw [treeRequirements,hu digest hd] at h
    cases h

theorem pin_possible (h : pin previous g n = some q) : q ∈ possible u co previous ds := by
  obtain ⟨p,hp,hpn,hqn,hqu,hv⟩ := pin_mem h
  refine List.mem_append_left _ (List.mem_append_right _ (List.mem_filterMap.mpr ⟨p,hp,?_⟩))
  rw [hv]
  obtain ⟨name,version,url⟩ := q
  dsimp only at hqn hqu ⊢
  rw [Option.map_some,hpn,hqn,hqu]

theorem treeRequirements_spelled (h : q ∈ treeRequirements t) : Spelled q := by
  unfold treeRequirements at h
  split at h
  · cases h
  · obtain ⟨d,-,hd⟩ := List.mem_filterMap.mp h
    exact requirementOf_spelled hd

theorem pin_spelled (h : pin previous g n = some q) : Spelled q := by
  obtain ⟨p,-,-,-,-,hv⟩ := pin_mem h
  rw [Spelled,parsed_written hv]
  exact hv

/-- What every run keeps: what is required is spelled, and a package is settled at the version that was the highest when
it was brought in, from the repository named first. -/
structure Progress (r : Run) : Prop where
  distinct : Distinct r.settled
  spelled : ∀ q ∈ r.gathered, Spelled q
  settled : ∀ n s, lookup r.settled n = some s → ∃ g v, g <+: r.gathered ∧ highest (forPackage g n) = some v ∧ s.version = v.written ∧
    s.url = firstUrl (forPackage g n) ∧ s.url ≠ []

theorem collectLocal_cases (h : q ∈ (collectLocal co).1) : ∃ m around, q ∈ (scan co around m).1 := by
  unfold collectLocal at h
  split at h
  · cases h
  · dsimp only at h
    obtain ⟨x,hx,hq⟩ := List.mem_flatMap.mp h
    rcases List.mem_append.mp hx with hx | hx
    · split at hx
      · obtain ⟨s,-,rfl⟩ := List.mem_map.mp hx
        exact ⟨s,_,hq⟩
      · split at hx
        · obtain rfl := List.mem_singleton.mp hx
          exact ⟨_,_,hq⟩
        · cases hx
    · obtain ⟨⟨name,target,around⟩,-,ho⟩ := List.mem_filterMap.mp hx
      dsimp only at ho
      split at ho
      · split at ho
        · cases ho
          exact ⟨_,_,hq⟩
        · cases ho
      · cases ho

theorem collectLocal_spelled (h : q ∈ (collectLocal co).1) : Spelled q := by
  obtain ⟨m,around,hq⟩ := collectLocal_cases h
  exact requirementsOf_spelled hq

theorem Progress.start : Progress { gathered := (collectLocal co).1, problems := (collectLocal co).2 } where
  distinct := distinct_nil
  spelled _ hq := collectLocal_spelled hq
  settled := nofun

variable (previous r) in
theorem pin_gathered : ∃ pins, (r.pin previous).gathered = r.gathered ++ pins ∧ ∀ q ∈ pins, ∃ g n, pin previous g n = some q :=
  addLockPins_gathered (r.gathered,r.pinned)

theorem Progress.pin (hr : Progress r) : Progress (r.pin previous) := by
  obtain ⟨pins,hpins,hall⟩ := pin_gathered previous r
  refine ⟨hr.distinct,fun q hq => ?_,fun n s hs => ?_⟩
  · rw [hpins] at hq
    rcases List.mem_append.mp hq with hq | hq
    · exact hr.spelled q hq
    · obtain ⟨g,n,hg⟩ := hall q hq
      exact pin_spelled hg
  · obtain ⟨g,v,hg,hv⟩ := hr.settled n s hs
    rw [hpins]
    exact ⟨g,v,hg.trans (List.prefix_append ..),hv⟩

theorem mem_select (h : c ∈ (select g).1) : choose g c.name = some c := by
  obtain ⟨n,-,hn⟩ := List.mem_filterMap.mp h
  have : c.name = n := by
    unfold choose at hn
    split at hn
    · split at hn
      · cases hn
      · cases hn
        rfl
    · cases hn
  rwa [this]

theorem choose_highest (h : choose g n = some c) : highest (forPackage g n) = some c.version ∧
    c.url = firstUrl (forPackage g n) ∧ c.url ≠ [] := by
  unfold choose at h
  split at h
  · rename_i url version hu hv
    split at h
    · cases h
    · rename_i hne
      cases h
      refine ⟨hv,?_,hne⟩
      unfold agreedUrl at hu
      split at hu
      · exact (Option.some.inj hu).symm
      · cases hu
  · cases h

theorem mem_batch {b : Choice × Brought} : b ∈ batch u co previous r ↔ b.1 ∈ outstanding r.settled (select r.gathered).1 ∧
    b.2 = bring u co previous b.1 := by
  rw [batch,List.mem_map]
  constructor
  · rintro ⟨c,hc,rfl⟩
    exact ⟨hc,rfl⟩
  · rintro ⟨hc,hb⟩
    exact ⟨b.1,hc,by rw [← hb]⟩

/-- What is settled after a batch: what it brought in, or what was there. -/
theorem foldIn_cases {l : List (Choice × Brought)} (hd : Distinct r.settled) (h : lookup (foldIn r l).settled n = some s) :
    (∃ b ∈ l, b.1.name = n ∧ b.2.settled = s) ∨ (∀ b ∈ l, b.1.name ≠ n) ∧ lookup r.settled n = some s := by
  induction l generalizing r with
  | nil => exact .inr ⟨nofun,h⟩
  | cons b l ih =>
    rw [foldIn_cons] at h
    rcases ih hd.insert h with ⟨x,hx,hxn,hxs⟩ | ⟨hno,hl⟩
    · exact .inl ⟨x,List.mem_cons_of_mem b hx,hxn,hxs⟩
    · rcases lookup_insert_cases hd hl with ⟨rfl,rfl⟩ | ⟨hn,hl⟩
      · exact .inl ⟨b,List.mem_cons_self ..,rfl,rfl⟩
      · exact .inr ⟨List.forall_mem_cons.mpr ⟨Ne.symm hn,hno⟩,hl⟩

theorem foldIn_isSome {l : List (Choice × Brought)} (hd : Distinct r.settled)
    (h : (lookup r.settled n).isSome ∨ ∃ b ∈ l, b.1.name = n) : (lookup (foldIn r l).settled n).isSome := by
  induction l generalizing r with
  | nil => exact h.elim id nofun
  | cons b l ih =>
    rw [foldIn_cons]
    refine ih hd.insert ?_
    by_cases hn : n = b.1.name
    · left
      rw [hn,lookup_insert_self hd]
      rfl
    · rw [lookup_insert_ne (by simpa using hn)]
      rcases h with h | ⟨x,hx,hxn⟩
      · exact .inl h
      · rcases List.mem_cons.mp hx with rfl | hx
        · exact absurd hxn.symm hn
        · exact .inr ⟨x,hx,hxn⟩

/-- What is settled after a round: what it brought in, or what was there. -/
theorem fold_cases (hd : Distinct r.settled) (h : lookup (r.fold u co previous).settled n = some s) :
    (∃ c ∈ outstanding r.settled (select r.gathered).1, c.name = n ∧ (bring u co previous c).settled = s) ∨
      (∀ c ∈ outstanding r.settled (select r.gathered).1, c.name ≠ n) ∧ lookup r.settled n = some s := by
  have hd' : Distinct ({ r with problems := r.problems ++ (batch u co previous r).flatMap fun b => b.2.stated } : Run).settled := hd
  rcases foldIn_cases hd' h with ⟨b,hb,hbn,hbs⟩ | ⟨hno,hl⟩
  · obtain ⟨hc,heq⟩ := mem_batch.mp hb
    exact .inl ⟨b.1,hc,hbn,by rw [← heq,hbs]⟩
  · exact .inr ⟨fun c hc => hno (c,bring u co previous c) (mem_batch.mpr ⟨hc,rfl⟩),hl⟩

theorem fold_isSome (hd : Distinct r.settled)
    (h : (lookup r.settled n).isSome ∨ ∃ c ∈ outstanding r.settled (select r.gathered).1, c.name = n) :
    (lookup (r.fold u co previous).settled n).isSome :=
  foldIn_isSome (r := { r with problems := _ }) hd (h.imp_right fun ⟨c,hc,hcn⟩ => ⟨(c,bring u co previous c),mem_batch.mpr ⟨hc,rfl⟩,hcn⟩)

variable (u co previous r) in
theorem fold_gathered : (r.fold u co previous).gathered = r.gathered ++ (batch u co previous r).flatMap (fun b => b.2.added) ∧
    ∀ q ∈ (batch u co previous r).flatMap (fun b => b.2.added), ∃ digest, q ∈ treeRequirements (u.tree digest) := by
  refine ⟨Run.fold_same.1,fun q hq => ?_⟩
  obtain ⟨b,hb,hq⟩ := List.mem_flatMap.mp hq
  rw [(mem_batch.mp hb).2] at hq
  exact bring_added hq

theorem Progress.fold (hr : Progress r) : Progress (r.fold u co previous) := by
  obtain ⟨hg,hadded⟩ := fold_gathered u co previous r
  have hold (n : Str) (s : Settled) (hl : lookup r.settled n = some s) : ∃ g v, g <+: (r.fold u co previous).gathered ∧
      highest (forPackage g n) = some v ∧ s.version = v.written ∧ s.url = firstUrl (forPackage g n) ∧ s.url ≠ [] := by
    obtain ⟨g,v,hpre,hv⟩ := hr.settled n s hl
    rw [hg]
    exact ⟨g,v,hpre.trans (List.prefix_append ..),hv⟩
  have hnew (b : Choice × Brought) (hb : b ∈ batch u co previous r) : ∃ g v, g <+: (r.fold u co previous).gathered ∧
      highest (forPackage g b.1.name) = some v ∧ b.2.settled.version = v.written ∧ b.2.settled.url = firstUrl (forPackage g b.1.name) ∧
      b.2.settled.url ≠ [] := by
    obtain ⟨hmem,heq⟩ := mem_batch.mp hb
    obtain ⟨hv,hu,hne⟩ := choose_highest (mem_select (List.mem_filter.mp hmem).1)
    rw [hg,heq,bring_url]
    exact ⟨r.gathered,b.1.version,List.prefix_append ..,hv,bring_version,hu,hne⟩
  obtain ⟨hd,hs⟩ := foldIn_settled (r := { r with
    problems := r.problems ++ (batch u co previous r).flatMap fun b => b.2.stated })
    (P := fun n s => ∃ g v, g <+: (r.fold u co previous).gathered ∧ highest (forPackage g n) = some v ∧ s.version = v.written ∧
      s.url = firstUrl (forPackage g n) ∧ s.url ≠ []) hr.distinct hold hnew
  refine ⟨hd,fun q hq => ?_,hs⟩
  rw [hg] at hq
  rcases List.mem_append.mp hq with hq | hq
  · exact hr.spelled q hq
  · obtain ⟨digest,hq⟩ := hadded q hq
    exact treeRequirements_spelled hq

/-- What is required is possible. -/
def Bounded (U : List Requirement) (r : Run) : Prop := ∀ q ∈ r.gathered, q ∈ U

theorem Bounded.pin (hr : Bounded (possible u co previous ds) r) : Bounded (possible u co previous ds) (r.pin previous) := by
  intro q hq
  obtain ⟨pins,hpins,hall⟩ := pin_gathered previous r
  rw [hpins] at hq
  rcases List.mem_append.mp hq with hq | hq
  · exact hr q hq
  · obtain ⟨g,n,hg⟩ := hall q hq
    exact pin_possible hg

theorem Bounded.fold (hu : u.Within ds) (hr : Bounded (possible u co previous ds) r) :
    Bounded (possible u co previous ds) (r.fold u co previous) := by
  intro q hq
  obtain ⟨hg,hadded⟩ := fold_gathered u co previous r
  rw [hg] at hq
  rcases List.mem_append.mp hq with hq | hq
  · exact hr q hq
  · obtain ⟨digest,hq⟩ := hadded q hq
    exact treeRequirements_possible hu hq

/-! ### Settling at higher versions -/

/-- Of a package's requirements with more after them, the highest is the same version or a higher one. -/
theorem highest_append {a b : List Requirement} {w : Version} (ha : highest a = some v) (hab : highest (a ++ b) = some w) :
    w = v ∨ weight v < weight w := by
  have hfold (l : List Requirement) (x : Version) : l.foldl (fun h r => higher h r.version) x = x ∨
      weight x < weight (l.foldl (fun h r => higher h r.version) x) := by
    induction l generalizing x with
    | nil => exact .inl rfl
    | cons q l ih =>
      rw [List.foldl_cons]
      rcases le_or_gt (weight q.version) (weight x) with hle | hlt
      · rw [higher_left hle]
        exact ih x
      · rw [higher_right hlt]
        exact .inr ((ih q.version).elim (fun h => by rwa [h]) hlt.trans)
  cases a with
  | nil => cases ha
  | cons q a =>
    obtain rfl := Option.some.inj ha
    obtain rfl := Option.some.inj hab
    rw [show q :: a.append b = (q :: a) ++ b from rfl,List.foldl_append]
    exact hfold b _

theorem forPackage_isPrefixOf {g g' : List Requirement} (h : g <+: g') : forPackage g n <+: forPackage g' n := h.filter _

/-- A package is settled at no lower version than a requirement asks for. -/
def Done (r : Run) (q : Requirement) : Prop := ∃ s v, lookup r.settled q.name = some s ∧ s.version = v.written ∧ parsed s.version = some v ∧
  weight q.version ≤ weight v

theorem Progress.settledAt (hr : Progress r) (hs : lookup r.settled n = some s) : ∃ g v, g <+: r.gathered ∧
    highest (forPackage g n) = some v ∧ s.version = v.written ∧ parsed s.version = some v := by
  obtain ⟨g,v,hg,hv,hsv,-⟩ := hr.settled n s hs
  obtain ⟨⟨q,hq,rfl⟩,-⟩ := highest_spec hv
  refine ⟨g,_,hg,hv,hsv,?_⟩
  rw [hsv]
  exact hr.spelled q (hg.subset (mem_forPackage.mp hq).1)

theorem outstanding_highest (hc : c ∈ outstanding r.settled (select r.gathered).1) : highest (forPackage r.gathered c.name) = some c.version :=
  (choose_highest (mem_select (List.mem_filter.mp hc).1)).1

variable (u co previous) in
/-- What a round brings in is settled at the version chosen for it. -/
theorem settles_choice (hr : Progress r) (hc : c ∈ outstanding r.settled (select r.gathered).1) :
    (bring u co previous c).settled.version = c.version.written ∧ parsed (bring u co previous c).settled.version = some c.version := by
  obtain ⟨⟨p,hp,hpv⟩,-⟩ := highest_spec (outstanding_highest hc)
  refine ⟨bring_version,?_⟩
  rw [bring_version,← hpv]
  exact hr.spelled p (mem_forPackage.mp hp).1

theorem Done.fold (hr : Progress r) (h : Done r q) : Done (r.fold u co previous) q := by
  obtain ⟨s,v,hs,hsv,hpv,hle⟩ := h
  have hsome : (lookup (r.fold u co previous).settled q.name).isSome := fold_isSome hr.distinct (.inl (by rw [hs]; rfl))
  obtain ⟨s',hs'⟩ := Option.isSome_iff_exists.mp hsome
  rcases fold_cases hr.distinct hs' with ⟨c,hc,hcn,rfl⟩ | ⟨-,hl⟩
  · obtain ⟨hver,hpar⟩ := settles_choice u co previous hr hc
    refine ⟨_,c.version,hs',hver,hpar,hle.trans ?_⟩
    obtain ⟨g,w,hg,hw,-,hpw⟩ := hr.settledAt hs
    obtain rfl := Option.some.inj (hpw.symm.trans hpv)
    obtain ⟨⟨o,ho,rfl⟩,-⟩ := highest_spec hw
    refine (highest_spec (outstanding_highest hc)).2 o ?_
    rw [hcn]
    exact (forPackage_isPrefixOf hg).subset ho
  · obtain rfl := Option.some.inj (hl.symm.trans hs)
    exact ⟨_,v,hs',hsv,hpv,hle⟩

/-- A package in the batch is settled at a version it was not settled at. -/
theorem batch_progress (hr : Progress r) (hne : batch u co previous r ≠ []) : ∃ q ∈ r.gathered, ¬Done r q ∧ Done (r.fold u co previous) q := by
  obtain ⟨b,hb⟩ := List.exists_mem_of_ne_nil _ hne
  obtain ⟨hmem,-⟩ := mem_batch.mp hb
  have hhigh := outstanding_highest hmem
  obtain ⟨⟨q,hq,hqv⟩,-⟩ := highest_spec hhigh
  obtain ⟨hqg,hqn⟩ := mem_forPackage.mp hq
  refine ⟨q,hqg,?_,?_⟩
  · rintro ⟨s,v,hs,hsv,hpv,hle⟩
    obtain ⟨g,w,hg,hw,-,hpw⟩ := hr.settledAt hs
    obtain rfl := Option.some.inj (hpw.symm.trans hpv)
    have hout := (List.mem_filter.mp hmem).2
    rw [hqn] at hs hw
    rw [hs] at hout
    obtain ⟨rest,hrest⟩ := forPackage_isPrefixOf (n := b.1.name) hg
    rw [← hrest] at hhigh
    rcases highest_append hw hhigh with heq | hlt
    · rw [heq] at hout
      exact absurd hsv (by simpa using hout)
    · rw [hqv] at hle
      exact absurd hle (not_le_of_gt hlt)
  · have hsome : (lookup (r.fold u co previous).settled q.name).isSome := fold_isSome hr.distinct (.inr ⟨b.1,hmem,hqn.symm⟩)
    obtain ⟨s,hs⟩ := Option.isSome_iff_exists.mp hsome
    rcases fold_cases hr.distinct hs with ⟨c,hc,hcn,rfl⟩ | ⟨hno,-⟩
    · obtain ⟨hver,hpar⟩ := settles_choice u co previous hr hc
      have hsame : c.version = q.version := by
        have := outstanding_highest hc
        rw [hcn,hqn,hhigh] at this
        rw [hqv]
        exact (Option.some.inj this).symm
      exact ⟨_,c.version,hs,hver,hpar,by rw [hsame]⟩
    · exact absurd hqn.symm (hno b.1 hmem)

theorem Done.pin (h : Done r q) : Done (r.pin previous) q := h

/-! ### The rounds end -/

noncomputable def left (U : List Requirement) (r : Run) : ℕ := by
  classical exact (U.toFinset.filter fun q => ¬Done r q).card

theorem left_lt (hr : Progress r) (hb : Bounded (possible u co previous ds) r) (hg : GoesOn u co previous r) :
    left (possible u co previous ds) (r.next u co previous) < left (possible u co previous ds) r := by
  have hp : Progress (r.pin previous) := hr.pin
  obtain ⟨q,hq,hnot,hdone⟩ := batch_progress hp hg.2.1
  classical
  refine Finset.card_lt_card (Finset.ssubset_iff_of_subset ?_ |>.mpr ⟨q,?_,?_⟩)
  · intro p hmem
    obtain ⟨hpU,hpd⟩ := Finset.mem_filter.mp hmem
    exact Finset.mem_filter.mpr ⟨hpU,fun hd => hpd (Done.fold hp hd.pin)⟩
  · exact Finset.mem_filter.mpr ⟨List.mem_toFinset.mpr (hb.pin q hq),hnot⟩
  · exact fun hmem => (Finset.mem_filter.mp hmem).2 hdone

theorem stage_progress (hr : Progress r) (m : ℕ) : Progress (stage u co previous r m) := by
  induction m with
  | zero => exact hr
  | succ m ih =>
    rw [stage_succ]
    exact ih.pin.fold

theorem stage_bounded (hu : u.Within ds) (hr : Bounded (possible u co previous ds) r) (m : ℕ) :
    Bounded (possible u co previous ds) (stage u co previous r m) := by
  induction m with
  | zero => exact hr
  | succ m ih =>
    rw [stage_succ]
    exact ih.pin.fold hu

theorem rounds_end (hu : u.Within ds) (hr : Progress r) (hb : Bounded (possible u co previous ds) r) :
    ∃ m, ¬GoesOn u co previous (stage u co previous r m) := by
  by_contra hall
  simp only [not_exists,not_not] at hall
  have hle (m : ℕ) : left (possible u co previous ds) (stage u co previous r m) + m ≤ left (possible u co previous ds) r := by
    induction m with
    | zero => exact Nat.le_refl _
    | succ m ih =>
      have := left_lt (stage_progress hr m) (stage_bounded hu hb m) (hall m)
      rw [← stage_succ] at this
      omega
  have := hle (left (possible u co previous ds) r + 1)
  omega

/-! ### The limit -/

/-- Only finitely many digests are those of files with a manifest. -/
def Universe.Finite (u : Universe) : Prop := ∃ ds, u.Within ds

theorem requirementsOf_quiet (l : List Dependency) : Problem.unsettled ∉ (requirementsOf l).2 := by
  intro h
  obtain ⟨d,-,hd⟩ := List.mem_flatMap.mp h
  unfold requirementOf at hd
  split at hd
  · cases hd
  · dsimp only at hd
    split at hd
    · cases List.mem_singleton.mp hd
    · cases hd

theorem collectLocal_quiet : Problem.unsettled ∉ (collectLocal co).2 := by
  have hscan {names : List Str} {s : Survey} : Problem.unsettled ∉ (scan co names s).2 := requirementsOf_quiet _
  intro h
  unfold collectLocal at h
  split at h
  · cases h
  · dsimp only at h
    obtain ⟨x,hx,hq⟩ := List.mem_flatMap.mp h
    rcases List.mem_append.mp hx with hx | hx
    · split at hx
      · obtain ⟨s,-,rfl⟩ := List.mem_map.mp hx
        exact hscan hq
      · split at hx
        · obtain rfl := List.mem_singleton.mp hx
          exact hscan hq
        · cases hx
    · obtain ⟨⟨name,target,around⟩,-,ho⟩ := List.mem_filterMap.mp hx
      dsimp only at ho
      split at ho
      · split at ho
        · cases ho
          exact hscan hq
        · cases ho
      · cases ho

theorem fromTree_quiet : Problem.unsettled ∉ (fromTree co c t commit digest).stated ∧
    (fromTree co c t commit digest).problem ≠ some .unsettled := by
  have hprovided {names : List Str} {m : Survey} : Problem.unsettled ∉ (provided co c commit digest names m).stated ∧
      (provided co c commit digest names m).problem ≠ some .unsettled := ⟨requirementsOf_quiet _,nofun⟩
  have hunusable : Problem.unsettled ∉ (unusable c).stated ∧ (unusable c).problem ≠ some .unsettled := ⟨nofun,nofun⟩
  unfold fromTree
  split
  · exact hunusable
  · split
    · split
      · exact hunusable
      · exact hprovided
    · split
      · split
        · exact hprovided
        · exact hunusable
      · exact hunusable

theorem bring_quiet : Problem.unsettled ∉ (bring u co previous c).stated ∧ (bring u co previous c).problem ≠ some .unsettled := by
  rcases bring_cases u co previous c with h | ⟨commit,digest,h⟩
  · rw [h]
    exact ⟨nofun,nofun⟩
  · rw [h]
    exact fromTree_quiet

theorem select_quiet : Problem.unsettled ∉ (select g).2 := by
  intro h
  obtain ⟨n,-,hn⟩ := List.mem_flatMap.mp h
  unfold disagreements at hn
  rcases List.mem_append.mp hn with hn | hn
  · split at hn
    · cases List.mem_singleton.mp hn
    · cases hn
  · split at hn
    · cases List.mem_singleton.mp hn
    · cases hn

theorem Run.fold_quiet (h : Problem.unsettled ∉ r.problems) : Problem.unsettled ∉ (r.fold u co previous).problems := by
  rw [Run.fold_same.2.2]
  intro hmem
  rcases List.mem_append.mp hmem with hmem | hmem
  · exact h hmem
  · obtain ⟨b,hb,hb'⟩ := List.mem_flatMap.mp hmem
    rw [(mem_batch.mp hb).2] at hb'
    exact bring_quiet.1 hb'

theorem stage_quiet (h : Problem.unsettled ∉ r.problems) (m : ℕ) : Problem.unsettled ∉ (stage u co previous r m).problems := by
  induction m with
  | zero => exact h
  | succ m ih =>
    rw [stage_succ]
    exact Run.fold_quiet (r := (stage u co previous r m).pin previous) ih

theorem Run.ended_quiet (h : Problem.unsettled ∉ r.problems) : Problem.unsettled ∉ (r.ended u co previous).problems := by
  unfold Run.ended
  dsimp only
  split
  · intro hmem
    exact (List.mem_append.mp hmem).elim h select_quiet
  · split
    · exact h
    · intro hmem
      rcases List.mem_append.mp hmem with hmem | hmem
      · exact (List.mem_append.mp hmem).elim (Run.fold_quiet (r := r.pin previous) h) select_quiet
      · obtain ⟨b,hb,hb'⟩ := List.mem_filterMap.mp hmem
        rw [(mem_batch.mp hb).2] at hb'
        exact bring_quiet.2 hb'

def starting (co : Checkout) : Run := { gathered := (collectLocal co).1, problems := (collectLocal co).2 }

variable (u co previous) in
theorem settling_unsettled (previous : Option Lockfile) : Problem.unsettled ∈ (settling u co previous).problems ↔
    ∀ m < 64, GoesOn u co (previous.getD {}) (stage u co (previous.getD {}) (starting co) m) := by
  obtain ⟨m,hm,hall,⟨rfl,heq⟩ | ⟨hlt,hnot,heq⟩⟩ := bringEverything_stages u co (previous.getD {}) (starting co) 64
  · refine iff_of_true ?_ hall
    change Problem.unsettled ∈ (bringEverything u co (previous.getD {}) 64 (starting co)).problems
    rw [heq]
    exact List.mem_append_right _ (List.mem_singleton_self _)
  · refine iff_of_false ?_ fun h => hnot (h m hlt)
    change Problem.unsettled ∉ (bringEverything u co (previous.getD {}) 64 (starting co)).problems
    rw [heq]
    exact Run.ended_quiet (stage_quiet collectLocal_quiet m)

/-- The version `1.n`, with two digits. -/
def minor (n : ℕ) : Str := [49,46,48 + n / 10,48 + n % 10]

def ladder : Universe where
  cached := true
  fetch name _ version := some (version,name ++ version)
  stored _ := false
  tree digest :=
    match (List.range 33).find? fun n => digest = 97 :: minor n ∨ digest = 98 :: minor n with
    | none => ⟨none,fun _ => none⟩
    | some n =>
      if digest = 97 :: minor n then package [97] [required [98] (minor n)]
      else package [98] (if n < 32 then [required [97] (minor (n + 1))] else [])

def climbing : Checkout where
  root := package [120] [required [97] (minor 0)]
  enclosing := []
  overrides := []

theorem ladder_finite : ladder.Finite := by
  refine ⟨(List.range 33).flatMap fun n => [97 :: minor n,98 :: minor n],fun d hd => ?_⟩
  have hnone : ((List.range 33).find? fun n => d = 97 :: minor n ∨ d = 98 :: minor n) = none := by
    refine List.find?_eq_none.mpr fun n hn h => hd (List.mem_flatMap.mpr ⟨n,hn,?_⟩)
    simpa using h
  simp only [ladder,hnone]

end Ens.Packages
