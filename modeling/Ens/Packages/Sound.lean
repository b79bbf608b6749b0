import Ens.Packages.Limit

/-! # What a resolution settles is what was required

When the rounds end nothing is left to bring in, so each package stands at the highest version required of it, and the
manifests of the settled versions are among those that were read. A requirement on a member of the same workspace is not
one of those gathered.
-/
set_option linter.all false
namespace Ens.Packages
open Entries
variable {u : Universe} {co : Checkout} {previous : Option Lockfile} {r : Run} {g g' : List Requirement} {n : Str}
variable {s : Settled} {c : Choice} {m : Survey} {d : Dependency} {q : Requirement} {around : List Str} {t : Tree} {v w : Version}

/-! ### Manifests -/

def packageManifest (t : Tree) (n : Str) : Option (Survey × List Str) :=
  match t.survey with
  | none => none
  | some s =>
    if s.isPackage then if s.packageName = n then some (s,[]) else none
    else if s.isWorkspace then
      (((memberPackages t s).filter fun m => m.packageName = n).getLast?).map fun m => (m,(memberPackages t s).map Survey.packageName)
    else none

/-- The manifests a build reads, once it has settled on some packages, with the names of the members around each. -/
inductive Reads (u : Universe) (co : Checkout) (settled : List (Str × Settled)) : Survey → List Str → Prop
  | root {s : Survey} : co.root.survey = some s → s.isWorkspace = false → s.isPackage = true → Reads u co settled s co.enclosing
  | member {w s : Survey} : co.root.survey = some w → w.isWorkspace = true → s ∈ memberPackages co.root w →
      Reads u co settled s ((memberPackages co.root w).map Survey.packageName)
  | overridden {n : Str} {s : Survey} {around : List Str} : co.root.survey.isSome → (n,some s,around) ∈ co.overrides →
      s.isPackage = true → Reads u co settled s around
  | package {n : Str} {t : Settled} {s : Survey} {around : List Str} : lookup settled n = some t → packageManifest (u.tree t.digest) n = some (s,around) →
      Reads u co settled s around

/-- A dependency is met by the version its package settled at. -/
def Met (settled : List (Str × Settled)) (d : Dependency) : Prop :=
  ∀ w s, parsed d.version = some w → lookup settled d.name = some s →
    ∃ v, parsed s.version = some v ∧ 0 ≤ compare v w ∧ sameMajor v w = true ∧ (d.hasSource = true → d.url ≠ [] → d.url = s.url)

structure Sound (u : Universe) (co : Checkout) (r : Run) : Prop where
  found : ∀ q ∈ r.gathered, q.url ≠ [] → (lookup r.settled q.name).isSome
  highest : ∀ n s, lookup r.settled n = some s → ∃ q ∈ r.gathered, q.name = n ∧ parsed s.version = some q.version ∧
    ∀ p ∈ r.gathered, p.name = n → 0 ≤ compare q.version p.version
  read : ∀ n s, lookup r.settled n = some s → (packageManifest (u.tree s.digest) n).isSome
  met : ∀ m around, Reads u co r.settled m around → ∀ d ∈ m.requirements, d.hasVersion = true → d.name ∉ around →
    (co.overridden d.name = false → d.hasSource = true → d.url ≠ [] → (parsed d.version).isSome → (lookup r.settled d.name).isSome) ∧
      Met r.settled d

/-! ### What a manifest states is gathered -/

theorem requirementOf_some (hv : parsed d.version = some w) :
    (requirementOf d).1 = some ⟨d.name,w,if d.hasSource then d.url else []⟩ := by
  rw [requirementOf,hv]

theorem mem_requirementsOf {l : List Dependency} (hd : d ∈ l) (hq : (requirementOf d).1 = some q) : q ∈ (requirementsOf l).1 :=
  List.mem_filterMap.mpr ⟨d,hd,hq⟩

theorem mem_scan (hd : d ∈ m.requirements) (hv : d.hasVersion = true) (ha : d.name ∉ around) (ho : co.overridden d.name = false)
    (hq : (requirementOf d).1 = some q) : q ∈ (scan co around m).1 :=
  mem_requirementsOf (List.mem_filter.mpr ⟨hd,by simp [ha,ho,hv]⟩) hq

theorem mem_provided {commit digest : Str} (hd : d ∈ m.requirements) (hv : d.hasVersion = true) (ha : d.name ∉ around)
    (ho : co.overridden d.name = false) (hq : (requirementOf d).1 = some q) : q ∈ (provided co c commit digest around m).added :=
  mem_requirementsOf (List.mem_filter.mpr ⟨List.mem_filter.mpr ⟨hd,by simp [ha,hv]⟩,by simp [ho]⟩) hq

theorem fromTree_manifest {commit digest : Str} (h : (fromTree co c t commit digest).problem = none) :
    ∃ m around, packageManifest t c.name = some (m,around) ∧ fromTree co c t commit digest = provided co c commit digest around m := by
  unfold fromTree at h ⊢
  unfold packageManifest
  cases ht : t.survey with
  | none =>
    rw [ht] at h
    cases h
  | some s =>
    rw [ht] at h
    dsimp only at h ⊢
    by_cases hp : s.isPackage = true
    · rw [if_pos hp] at h ⊢
      by_cases hn : s.packageName = c.name
      · rw [if_pos hp,if_pos hn,if_neg (not_not.mpr hn)]
        exact ⟨s,[],rfl,rfl⟩
      · rw [if_pos hn] at h
        cases h
    · rw [if_neg hp] at h ⊢
      by_cases hw : s.isWorkspace = true
      · rw [if_neg hp,if_pos hw]
        rw [if_pos hw] at h ⊢
        cases hl : ((memberPackages t s).filter fun m => m.packageName = c.name).getLast? with
        | none =>
          rw [hl] at h
          cases h
        | some m => exact ⟨m,_,rfl,rfl⟩
      · rw [if_neg hw] at h
        cases h

/-- A settled package was brought in from the manifest its files hold. -/
theorem Entry.manifest (h : Entry u co g n s) : ∃ m around, packageManifest (u.tree s.digest) n = some (m,around) ∧
    ∀ d ∈ m.requirements, d.hasVersion = true → d.name ∉ around → co.overridden d.name = false →
      ∀ q, (requirementOf d).1 = some q → q ∈ g := by
  obtain ⟨c,commit,digest,b,rfl,hrec,hp,-,rfl,hadd⟩ := h
  rw [hrec.files] at hp hadd ⊢
  obtain ⟨m,around,hm,hprov⟩ := fromTree_manifest hp
  obtain ⟨-,-,-,-,hdigest⟩ := fromTree_settled hp
  refine ⟨m,around,by rw [hdigest,hm],fun d hd hv ha ho q hq => hadd q ?_⟩
  rw [hprov]
  exact mem_provided hd hv ha ho hq

theorem reads_gathered (hi : Inv u co r) (hread : Reads u co r.settled m around) (hd : d ∈ m.requirements) (hv : d.hasVersion = true)
    (ha : d.name ∉ around) (ho : co.overridden d.name = false) (hq : (requirementOf d).1 = some q) : q ∈ r.gathered := by
  have hscan := mem_scan hd hv ha ho hq
  cases hread with
  | root hs hw hp =>
    refine hi.start q ?_
    rw [collectLocal,hs]
    refine List.mem_flatMap.mpr ⟨_,List.mem_append_left _ ?_,hscan⟩
    rw [if_neg (by simp [hw]),if_pos hp]
    exact List.mem_singleton_self _
  | @member w _ hs hw hm =>
    refine hi.start q ?_
    rw [collectLocal,hs]
    refine List.mem_flatMap.mpr ⟨_,List.mem_append_left _ ?_,hscan⟩
    rw [if_pos hw]
    exact List.mem_map.mpr ⟨m,hm,rfl⟩
  | @overridden name _ _ hroot hmem hp =>
    refine hi.start q ?_
    obtain ⟨root,hroot⟩ := Option.isSome_iff_exists.mp hroot
    rw [collectLocal,hroot]
    refine List.mem_flatMap.mpr ⟨_,List.mem_append_right _ (List.mem_filterMap.mpr ⟨_,hmem,?_⟩),hscan⟩
    dsimp only
    rw [if_pos hp]
  | package hl hm =>
    obtain ⟨m',around',hm',hall⟩ := (hi.entries _ _ hl).manifest
    obtain ⟨rfl,rfl⟩ := Prod.ext_iff.mp (Option.some.inj (hm.symm.trans hm'))
    exact hall d hd hv ha ho q hq

/-! ### What the rounds come to -/

theorem firstUrl_append {a b : List Requirement} (h : firstUrl a ≠ []) : firstUrl (a ++ b) = firstUrl a := by
  induction a with
  | nil => exact absurd rfl h
  | cons q a ih =>
    rw [List.cons_append,firstUrl,firstUrl]
    rw [firstUrl] at h
    split
    · rename_i hq
      rw [if_pos hq] at h
      exact ih h
    · rfl

/-- Where the requirements agree, a package some of them names a repository for is chosen. -/
theorem choose_agreed (ha : Agreed g) (hu : firstUrl (forPackage g n) ≠ []) :
    ∃ v, highest (forPackage g n) = some v ∧ choose g n = some ⟨n,firstUrl (forPackage g n),v⟩ := by
  obtain ⟨p,hp,-⟩ := firstUrl_mem hu
  obtain ⟨v,hv⟩ := highest_some (List.ne_nil_of_mem hp)
  have hagreed : agreedUrl (forPackage g n) = some (firstUrl (forPackage g n)) := by
    cases h : agreedUrl (forPackage g n) with
    | none =>
      have hname := (mem_forPackage.mp hp).2
      have hnone := select_agreed.mpr ha
      rw [select,List.flatMap_eq_nil_iff] at hnone
      have hdis := hnone n (mem_names.mpr ⟨p,(mem_forPackage.mp hp).1,hname⟩)
      rw [disagreements,if_pos h] at hdis
      cases hdis
    | some url =>
      unfold agreedUrl at h
      split at h
      · exact h.symm
      · cases h
  refine ⟨v,hv,?_⟩
  unfold choose
  rw [hagreed,hv]
  exact if_neg hu

theorem mem_select_of (h : choose g n = some c) (hq : q ∈ g) (hn : q.name = n) : c ∈ (select g).1 :=
  List.mem_filterMap.mpr ⟨n,mem_names.mpr ⟨q,hq,hn⟩,h⟩

section
variable (hr : Progress r) (ha : Agreed r.gathered) (ho : outstanding r.settled (select r.gathered).1 = [])
include ha ho

theorem settled_choice (hq : q ∈ forPackage r.gathered n) (hu : firstUrl (forPackage r.gathered n) ≠ []) :
    ∃ s v, lookup r.settled n = some s ∧ highest (forPackage r.gathered n) = some v ∧ s.version = v.written := by
  obtain ⟨v,hv,hchoose⟩ := choose_agreed ha hu
  obtain ⟨hqg,hqn⟩ := mem_forPackage.mp hq
  have hout := List.filter_eq_nil_iff.mp ho _ (mem_select_of hchoose hqg hqn)
  dsimp only at hout
  cases hs : lookup r.settled n with
  | none =>
    rw [hs] at hout
    exact absurd rfl hout
  | some s =>
    rw [hs] at hout
    exact ⟨s,v,rfl,hv,by simpa using hout⟩

include hr

theorem settled_highest (hs : lookup r.settled n = some s) : ∃ v, highest (forPackage r.gathered n) = some v ∧
    parsed s.version = some v ∧ s.url = firstUrl (forPackage r.gathered n) ∧ s.url ≠ [] := by
  obtain ⟨g,w,hg,hw,-,hurl,hne⟩ := hr.settled n s hs
  obtain ⟨⟨p,hp,-⟩,-⟩ := highest_spec hw
  obtain ⟨rest,hrest⟩ := forPackage_isPrefixOf (n := n) hg
  have hfirst : firstUrl (forPackage r.gathered n) = firstUrl (forPackage g n) := by
    rw [← hrest,firstUrl_append (hurl ▸ hne)]
  have hp : p ∈ forPackage r.gathered n := hrest ▸ List.mem_append_left _ hp
  obtain ⟨t,v,ht,hv,htv⟩ := settled_choice ha ho hp (by rwa [hfirst,← hurl])
  obtain rfl := Option.some.inj (hs.symm.trans ht)
  obtain ⟨⟨q,hq,hqv⟩,-⟩ := highest_spec hv
  refine ⟨v,hv,?_,hurl.trans hfirst.symm,hne⟩
  rw [htv,← hqv]
  exact hr.spelled q (mem_forPackage.mp hq).1

end

/-- Nothing is required of a package that is redirected. -/
def Free (co : Checkout) (r : Run) : Prop := ∀ q ∈ r.gathered, co.overridden q.name = false

theorem requirementOf_name (h : (requirementOf d).1 = some q) : q.name = d.name := by
  unfold requirementOf at h
  split at h
  · cases h
    rfl
  · cases h

theorem scan_free (h : q ∈ (scan co around m).1) : co.overridden q.name = false := by
  obtain ⟨d,hd,hq⟩ := List.mem_filterMap.mp h
  have hkept := (List.mem_filter.mp hd).2
  rw [requirementOf_name hq]
  cases ho : co.overridden d.name with
  | false => rfl
  | true => simp [ho] at hkept

theorem provided_free {commit digest : Str} (h : q ∈ (provided co c commit digest around m).added) :
    co.overridden q.name = false := by
  obtain ⟨d,hd,hq⟩ := List.mem_filterMap.mp h
  rw [requirementOf_name hq]
  simpa using (List.mem_filter.mp hd).2

theorem collectLocal_free (h : q ∈ (collectLocal co).1) : co.overridden q.name = false := by
  obtain ⟨m,around,hq⟩ := collectLocal_cases h
  exact scan_free hq

theorem Free.pin {lock : Lockfile} (h : Free co r) : Free co (r.pin lock) := by
  intro q hq
  have hback : Backed r.gathered q :=
    addLockPins_backed (x := (r.gathered,r.pinned)) (fun p hp => Backed.refl hp) q hq
  obtain ⟨⟨p,hp,hpn,-⟩,-⟩ := hback
  rw [← hpn]
  exact h p hp

theorem Free.fold {lock : Lockfile} (h : Free co r) (hb : ∀ b ∈ batch u co lock r, b.2.problem = none ∧ b.2.stated = []) :
    Free co (r.fold u co lock) := by
  intro q hq
  rw [Run.fold_same.1] at hq
  rcases List.mem_append.mp hq with hq | hq
  · exact h q hq
  · obtain ⟨b,hbm,hq⟩ := List.mem_flatMap.mp hq
    obtain ⟨hnone,-⟩ := hb b hbm
    rw [(mem_batch.mp hbm).2] at hnone hq
    obtain ⟨commit,digest,hrec⟩ := bring_recorded u co lock b.1 hnone
    rw [hrec.files] at hnone hq
    obtain ⟨m,around,-,hprov⟩ := fromTree_manifest hnone
    rw [hprov] at hq
    exact provided_free hq

theorem settling_clean (h : (settling u co previous).problems = []) : Inv u co (settling u co previous) ∧
    Progress (settling u co previous) ∧ Free co (settling u co previous) ∧ Agreed (settling u co previous).gathered ∧
    outstanding (settling u co previous).settled (select (settling u co previous).gathered).1 = [] := by
  have hstart : Inv u co (starting co) := ⟨distinct_nil,nofun,fun q hq => hq⟩
  obtain ⟨hi,-⟩ := bringEverything_settles hstart h
  obtain ⟨⟨hr,hf⟩,ha,ho⟩ := bringEverything_keeps (P := fun r => Progress r ∧ Free co r) h
    ⟨Progress.start,fun q hq => collectLocal_free hq⟩ (fun r hr => ⟨hr.1.pin,hr.2.pin⟩)
    fun r hr _ hb => ⟨hr.1.fold,hr.2.fold hb⟩
  exact ⟨hi,hr,hf,ha,ho⟩

theorem sound (hi : Inv u co r) (hr : Progress r) (hf : Free co r) (ha : Agreed r.gathered)
    (ho : outstanding r.settled (select r.gathered).1 = []) : Sound u co r := by
  have hfound (q : Requirement) (hq : q ∈ r.gathered) (hu : q.url ≠ []) : (lookup r.settled q.name).isSome := by
    have hmine := mem_forPackage.mpr ⟨hq,rfl⟩
    obtain ⟨s,v,hs,-,-⟩ := settled_choice ha ho hmine (firstUrl_ne hmine hu)
    rw [hs]
    rfl
  refine ⟨hfound,fun n s hs => ?_,fun n s hs => ?_,fun m around hread d hd hv hm => ⟨fun hover hsrc hne hpar => ?_,fun w s hw hs => ?_⟩⟩
  · obtain ⟨v,hv,hpar,-,-⟩ := settled_highest hr ha ho hs
    obtain ⟨⟨q,hq,rfl⟩,hall⟩ := highest_spec hv
    obtain ⟨hqg,hqn⟩ := mem_forPackage.mp hq
    exact ⟨q,hqg,hqn,hpar,fun p hp hpn => compare_nonneg.mpr (hall p (mem_forPackage.mpr ⟨hp,hpn⟩))⟩
  · obtain ⟨m,around,hm,-⟩ := (hi.entries n s hs).manifest
    rw [hm]
    rfl
  · obtain ⟨w,hw⟩ := Option.isSome_iff_exists.mp hpar
    have hq := reads_gathered hi hread hd hv hm hover (requirementOf_some hw)
    refine hfound _ hq ?_
    dsimp only
    rwa [if_pos hsrc]
  · obtain ⟨v,hhigh,hpar,hurl,hne⟩ := settled_highest hr ha ho hs
    obtain ⟨⟨p,hp,hpv⟩,hall⟩ := highest_spec hhigh
    obtain ⟨hpg,hpn⟩ := mem_forPackage.mp hp
    have hover : co.overridden d.name = false := hpn ▸ hf p hpg
    have hq := reads_gathered hi hread hd hv hm hover (requirementOf_some hw)
    have hmine := mem_forPackage.mpr ⟨hq,rfl⟩
    refine ⟨v,hpar,compare_nonneg.mpr (hall _ hmine),?_,fun hsrc hne' => ?_⟩
    · rw [← hpv]
      exact beq_iff_eq.mpr (ha p hpg _ hq hpn).2
    · obtain ⟨o,hog,hou⟩ := firstUrl_mem (hurl ▸ hne)
      obtain ⟨hog,hon⟩ := mem_forPackage.mp hog
      have hsame := (ha _ hq o hog hon.symm).1 (by dsimp only; rwa [if_pos hsrc]) (by rw [hou,← hurl]; exact hne)
      dsimp only at hsame
      rw [if_pos hsrc] at hsame
      rw [hsame,hou,hurl]

/-- When a resolution succeeds, every requirement that a manifest it reads states on a package that is no member of the
same workspace is met by the version that package settled at, which is the highest one required or pinned. -/
theorem resolve_sound {locked : Bool} {answer : Option Lockfile} (h : resolve u co previous locked = .ok answer) :
    Sound u co (settling u co previous) ∧
      ∀ lock, answer = some lock → ∀ n, lock.find n = (lookup (settling u co previous).settled n).map (lockPackage n) := by
  have hp : (settling u co previous).problems = [] := by
    rw [resolve] at h
    change (if (settling u co previous).problems ≠ [] then _ else _) = _ at h
    split at h
    · cases h
    · rename_i hp
      exact not_not.mp hp
  obtain ⟨hi,hr,hf,ha,ho⟩ := settling_clean hp
  refine ⟨sound hi hr hf ha ho,?_⟩
  rintro lock rfl n
  exact find_recorded hi (resolve_ok h).2.1

/-! ### A member of a workspace that a package requires too -/

/-- A workspace of `a` and `b`, where `a` requires `b` at `2.0` and the package `c`, which requires `b` at `1.0`. -/
def siblings : Checkout where
  root :=
    { survey := some ⟨false,true,[],[[97],[98]],[],[]⟩
      member := fun folder =>
        if folder = [97] then some ⟨true,false,[97],[],[⟨[98],true,[50,46,48],false,[]⟩,required [99] [49,46,48]],[]⟩
        else some ⟨true,false,[98],[],[],[]⟩ }
  enclosing := []
  overrides := []

def elsewhere : Universe where
  cached := true
  fetch name _ version := some (version,name ++ version)
  stored _ := false
  tree digest := if digest = [99,49,46,48] then package [99] [required [98] [49,46,48]] else package [98] []

theorem resolve_sound_both : Sound repositories (application true) (settling repositories (application true) none) :=
  (resolve_sound (show resolve repositories (application true) none false = .ok (some lockOfBoth) by decide +kernel)).1

/-- `b` settles at `1.0`, which is below what `a` requires of the member of that name. -/
theorem resolve_below : ∃ lock m around d s, resolve elsewhere siblings none false = .ok (some lock) ∧
    Reads elsewhere siblings (settling elsewhere siblings none).settled m around ∧ d ∈ m.requirements ∧ d.hasVersion = true ∧
    lookup (settling elsewhere siblings none).settled d.name = some s ∧ s.url ≠ [] ∧
    ¬Met (settling elsewhere siblings none).settled d := by
  have hs : lookup (settling elsewhere siblings none).settled [98] = some ⟨[49,46,48],[104,98],[49,46,48],[98,49,46,48],[],[],true⟩ := by
    decide +kernel
  refine ⟨⟨[],[],[],[recorded [98] [49,46,48] [],recorded [99] [49,46,48] [([98],[49,46,48])]]⟩,_,_,⟨[98],true,[50,46,48],false,[]⟩,_,
    by decide +kernel,.member rfl rfl (List.mem_cons_self ..),List.mem_cons_self ..,rfl,hs,by decide,fun hmet => ?_⟩
  obtain ⟨v,hv,hle,-⟩ := hmet ⟨[2,0],[50,46,48]⟩ _ (by decide +kernel) hs
  obtain rfl : (⟨[1,0],[49,46,48]⟩ : Version) = v := Option.some.inj (Eq.trans (by decide +kernel) hv)
  revert hle
  decide +kernel

end Ens.Packages
