import Ens.Packages.Resolution

/-! # What a settled build records

When the rounds end without a problem, all requirements gathered agree, and everything recorded of a
package is what its files state.
-/
set_option linter.all false
namespace Ens.Packages
open Entries
variable {u : Universe} {co : Checkout} {previous lock : Lockfile} {c d : Choice} {g g' : List Requirement}
variable {r r' : Run} {b : Brought} {s s' : Settled} {n : Str} {q : Requirement} {k : ℕ} {t : Tree} {commit digest : Str}

/-! ### Requirements that agree -/

/-- Requirements on one package name one repository, and one major version. -/
def Agreed (g : List Requirement) : Prop :=
  ∀ q ∈ g, ∀ q' ∈ g, q.name = q'.name → (q.url ≠ [] → q'.url ≠ [] → q.url = q'.url) ∧ q.version.major = q'.version.major

theorem mem_names : n ∈ names g ↔ ∃ q ∈ g, q.name = n := by
  simp [names]

theorem mem_forPackage : q ∈ forPackage g n ↔ q ∈ g ∧ q.name = n := by
  simp [forPackage]

theorem firstUrl_mem {mine : List Requirement} (h : firstUrl mine ≠ []) : ∃ q ∈ mine, q.url = firstUrl mine := by
  induction mine with
  | nil => exact absurd rfl h
  | cons q mine ih =>
    rw [firstUrl] at h ⊢
    split
    · rename_i hq
      rw [if_pos hq] at h
      obtain ⟨p,hp,he⟩ := ih h
      exact ⟨p,List.mem_cons_of_mem q hp,he⟩
    · exact ⟨q,List.mem_cons_self ..,rfl⟩

theorem firstUrl_ne {mine : List Requirement} (hq : q ∈ mine) (hu : q.url ≠ []) : firstUrl mine ≠ [] := by
  induction mine with
  | nil => cases hq
  | cons p mine ih =>
    rw [firstUrl]
    split
    · rename_i hp
      rcases List.mem_cons.mp hq with rfl | hq
      · exact absurd hp hu
      · exact ih hq
    · assumption

theorem agreedUrl_none {mine : List Requirement} : agreedUrl mine = none ↔ ∃ q ∈ mine, q.url ≠ [] ∧ q.url ≠ firstUrl mine := by
  simp [agreedUrl]

theorem spansMajors_false {mine : List Requirement} : spansMajors mine = false ↔
    ∀ q ∈ mine, ∀ q' ∈ mine, q.version.major = q'.version.major := by
  cases mine with
  | nil => simp [spansMajors]
  | cons first rest =>
    have hall : spansMajors (first :: rest) = false ↔ ∀ q ∈ first :: rest, first.version.major = q.version.major := by
      simp [spansMajors,sameMajor]
    rw [hall]
    constructor
    · intro h q hq q' hq'
      exact (h q hq).symm.trans (h q' hq')
    · intro h q hq
      exact h first (List.mem_cons_self ..) q hq

/-- Nothing stands against a selection exactly where the requirements agree. -/
theorem select_agreed : (select g).2 = [] ↔ Agreed g := by
  have hnames : (select g).2 = [] ↔ ∀ n ∈ names g, agreedUrl (forPackage g n) ≠ none ∧ spansMajors (forPackage g n) = false := by
    rw [select,List.flatMap_eq_nil_iff]
    refine forall₂_congr fun n _ => ?_
    simp [disagreements]
  rw [hnames]
  constructor
  · intro h q hq q' hq' hqq
    obtain ⟨hurl,hmajor⟩ := h q'.name (mem_names.mpr ⟨q',hq',rfl⟩)
    have hm := mem_forPackage.mpr ⟨hq,hqq⟩
    have hm' := mem_forPackage.mpr ⟨hq',rfl⟩
    have hsame (p : Requirement) (hp : p ∈ forPackage g q'.name) (hne : p.url ≠ []) : p.url = firstUrl (forPackage g q'.name) := by
      by_contra hc
      exact hurl (agreedUrl_none.mpr ⟨p,hp,hne,hc⟩)
    refine ⟨fun hne hne' => (hsame q hm hne).trans (hsame q' hm' hne').symm,?_⟩
    exact spansMajors_false.mp hmajor q hm q' hm'
  · intro h n _
    refine ⟨fun hnone => ?_,spansMajors_false.mpr fun q hq q' hq' => ?_⟩
    · obtain ⟨q,hq,hne,hdiff⟩ := agreedUrl_none.mp hnone
      obtain ⟨p,hp,he⟩ := firstUrl_mem (firstUrl_ne hq hne)
      obtain ⟨hqg,hqn⟩ := mem_forPackage.mp hq
      obtain ⟨hpg,hpn⟩ := mem_forPackage.mp hp
      refine hdiff ?_
      rw [← he]
      exact (h q hqg p hpg (hqn.trans hpn.symm)).1 hne (by rw [he]; exact firstUrl_ne hq hne)
    · obtain ⟨hq,hqn⟩ := mem_forPackage.mp hq
      obtain ⟨hq',hqn'⟩ := mem_forPackage.mp hq'
      exact (h q hq q' hq' (hqn.trans hqn'.symm)).2

/-- A requirement that agrees with whatever some requirements agree with. -/
def Backed (g : List Requirement) (q : Requirement) : Prop :=
  (∃ p ∈ g, p.name = q.name ∧ p.version.major = q.version.major) ∧ (q.url ≠ [] → ∃ p ∈ g, p.name = q.name ∧ p.url = q.url)

theorem Backed.refl (h : q ∈ g) : Backed g q := ⟨⟨q,h,rfl,rfl⟩,fun _ => ⟨q,h,rfl,rfl⟩⟩

theorem Agreed.backed (h : Agreed g) (hb : ∀ q ∈ g', Backed g q) : Agreed g' := by
  intro q hq q' hq' hqq
  obtain ⟨⟨p,hp,hpn,hpm⟩,hpu⟩ := hb q hq
  obtain ⟨⟨p',hp',hpn',hpm'⟩,hpu'⟩ := hb q' hq'
  refine ⟨fun hne hne' => ?_,?_⟩
  · obtain ⟨o,ho,hon,hou⟩ := hpu hne
    obtain ⟨o',ho',hon',hou'⟩ := hpu' hne'
    rw [← hou,← hou']
    exact (h o ho o' ho' (hon.trans (hqq.trans hon'.symm))).1 (by rwa [hou]) (by rwa [hou'])
  · rw [← hpm,← hpm']
    exact (h p hp p' hp' (hpn.trans (hqq.trans hpn'.symm))).2

theorem pin_backed (h : pin lock g n = some q) : Backed g q := by
  unfold pin at h
  split at h
  · cases h
  · rename_i first rest hmine
    dsimp only at h
    split at h
    · cases h
    · rename_i hurl
      split at h
      · cases h
      · split at h
        · cases h
        · split at h
          · cases h
          · split at h
            · rename_i hmajor
              cases h
              rw [← hmine] at hurl ⊢
              obtain ⟨hfirst,hfn⟩ := mem_forPackage.mp (show first ∈ forPackage g n by rw [hmine]; exact List.mem_cons_self ..)
              obtain ⟨p,hp,hpu⟩ := firstUrl_mem hurl
              obtain ⟨hp,hpn⟩ := mem_forPackage.mp hp
              exact ⟨⟨first,hfirst,hfn,(beq_iff_eq.mp hmajor).symm⟩,fun _ => ⟨p,hp,hpn,hpu⟩⟩
            · cases h

theorem Backed.trans (h : Backed g' q) (hb : ∀ p ∈ g', Backed g p) : Backed g q := by
  obtain ⟨⟨p,hp,hpn,hpm⟩,hpu⟩ := h
  obtain ⟨⟨o,ho,hon,hom⟩,-⟩ := hb p hp
  refine ⟨⟨o,ho,hon.trans hpn,hom.trans hpm⟩,fun hne => ?_⟩
  obtain ⟨p',hp',hpn',hpu'⟩ := hpu hne
  obtain ⟨o',ho',hon',hou'⟩ := (hb p' hp').2 (by rwa [hpu'])
  exact ⟨o',ho',hon'.trans hpn',hou'.trans hpu'⟩

theorem addLockPins_backed {x : List Requirement × List Str} (h : ∀ q ∈ x.1, Backed g q) :
    ∀ q ∈ (addLockPins lock x).1, Backed g q := by
  have hfold (ns : List Str) (y : List Requirement × List Str) (hy : ∀ q ∈ y.1, Backed g q) :
      ∀ q ∈ (ns.foldl (pinOne lock) y).1, Backed g q := by
    induction ns generalizing y with
    | nil => exact hy
    | cons n ns ih =>
      refine ih _ fun q hq => ?_
      unfold pinOne at hq
      split at hq
      · exact hy q hq
      · rcases List.mem_append.mp hq with hq | hq
        · exact hy q hq
        · exact (pin_backed (Option.mem_toList.mp hq)).trans hy
  exact hfold _ x h

theorem addLockPins_subset {x : List Requirement × List Str} (h : q ∈ x.1) : q ∈ (addLockPins lock x).1 := by
  have hfold (ns : List Str) (y : List Requirement × List Str) (hy : q ∈ y.1) : q ∈ (ns.foldl (pinOne lock) y).1 := by
    induction ns generalizing y with
    | nil => exact hy
    | cons n ns ih =>
      refine ih _ ?_
      unfold pinOne
      split
      · exact hy
      · exact List.mem_append_left _ hy
  exact hfold _ x h

/-! ### What bringing a package in records -/

/-- What is recorded of a package is what its files state, and they are in the cache or fetched from its
repository. -/
structure Recorded (u : Universe) (co : Checkout) (c : Choice) (commit digest : Str) (b : Brought) : Prop where
  cached : u.cached = true
  held : (u.stored digest ∧ (u.tree digest).survey.isSome) ∨ u.fetch c.name c.url c.version.written = some (commit,digest)
  files : b = fromTree co c (u.tree digest) commit digest

theorem fromTree_settled (h : (fromTree co c t commit digest).problem = none) :
    (fromTree co c t commit digest).settled.usable = true ∧ (fromTree co c t commit digest).settled.version = c.version.written ∧
      (fromTree co c t commit digest).settled.url = c.url ∧ (fromTree co c t commit digest).settled.commit = commit ∧
      (fromTree co c t commit digest).settled.digest = digest := by
  unfold fromTree at h ⊢
  split
  · rename_i ht
    rw [ht] at h
    cases h
  · rename_i s ht
    rw [ht] at h
    dsimp only at h
    split
    · rename_i hp
      rw [if_pos hp] at h
      split
      · rename_i hn
        rw [if_pos hn] at h
        cases h
      · exact ⟨rfl,rfl,rfl,rfl,rfl⟩
    · rename_i hp
      rw [if_neg hp] at h
      split
      · rename_i hw
        rw [if_pos hw] at h
        split
        · exact ⟨rfl,rfl,rfl,rfl,rfl⟩
        · rename_i hl
          rw [hl] at h
          cases h
      · rename_i hw
        rw [if_neg hw] at h
        cases h

/-- Of the choice only its name, its repository and the spelling of its version are read. -/
theorem fromTree_congr (hn : c.name = d.name) (hu : c.url = d.url) (hv : c.version.written = d.version.written) :
    fromTree co c t commit digest = fromTree co d t commit digest := by
  unfold fromTree unusable provided
  rw [hn,hu,hv]

theorem fetched_recorded (h : (bring u co previous c).problem = none) (expected : Option LockPackage) (hc : u.cached = true)
    (hb : bring u co previous c = (match u.fetch c.name c.url c.version.written with
      | none => unusable c
      | some (commit,digest) =>
        if expected.any fun locked => locked.content ≠ digest then unusable c
        else fromTree co c (u.tree digest) commit digest)) :
    ∃ commit digest, Recorded u co c commit digest (bring u co previous c) := by
  split at hb
  · rw [hb] at h
    cases h
  · rename_i commit digest hf
    split at hb
    · rw [hb] at h
      cases h
    · exact ⟨commit,digest,hc,.inr hf,hb⟩

variable (u co previous c) in
theorem bring_recorded (h : (bring u co previous c).problem = none) :
    ∃ commit digest, Recorded u co c commit digest (bring u co previous c) := by
  cases hc : u.cached with
  | false =>
    rw [bring,hc] at h
    cases h
  | true =>
    cases hp : pinnedHere previous c with
    | none => exact fetched_recorded h none hc (by simp only [bring,hc,hp]; rfl)
    | some locked =>
      by_cases hs : u.stored locked.content ∧ (u.tree locked.content).survey.isSome
      · exact ⟨locked.commit,locked.content,hc,.inl hs,by simp only [bring,hc,hp,if_pos hs]; rfl⟩
      · exact fetched_recorded h (some locked) hc (by simp only [bring,hc,hp,if_neg hs]; rfl)

/-! ### The rounds -/

variable {batch : List (Choice × Brought)} {P : Str → Settled → Prop}

theorem foldIn_cons {x : Choice × Brought} : foldIn r (x :: batch) = foldIn
    { r with settled := insert r.settled x.1.name x.2.settled, gathered := r.gathered ++ x.2.added } batch := rfl

variable (r batch) in
theorem foldIn_same : (foldIn r batch).gathered = r.gathered ++ batch.flatMap (fun x => x.2.added) ∧
    (foldIn r batch).pinned = r.pinned ∧ (foldIn r batch).problems = r.problems := by
  induction batch generalizing r with
  | nil => simp [foldIn]
  | cons x batch ih =>
    obtain ⟨hg,hp,hq⟩ := ih { r with settled := insert r.settled x.1.name x.2.settled, gathered := r.gathered ++ x.2.added }
    refine ⟨?_,hp,hq⟩
    rw [foldIn_cons,hg,List.flatMap_cons,List.append_assoc]

theorem lookup_insert_cases {m : List (Str × Settled)} {v : Settled} {j : Str} (hd : Distinct m)
    (h : lookup (insert m n v) j = some s) : j = n ∧ s = v ∨ j ≠ n ∧ lookup m j = some s := by
  by_cases hj : j = n
  · subst hj
    rw [lookup_insert_self hd] at h
    exact .inl ⟨rfl,(Option.some.inj h).symm⟩
  · rw [lookup_insert_ne (by simpa using hj)] at h
    exact .inr ⟨hj,h⟩

theorem foldIn_settled (hd : Distinct r.settled) (hr : ∀ n s, lookup r.settled n = some s → P n s)
    (hb : ∀ x ∈ batch, P x.1.name x.2.settled) :
    Distinct (foldIn r batch).settled ∧ ∀ n s, lookup (foldIn r batch).settled n = some s → P n s := by
  induction batch generalizing r with
  | nil => exact ⟨hd,hr⟩
  | cons x batch ih =>
    refine ih hd.insert (fun n s hl => ?_) fun y hy => hb y (List.mem_cons_of_mem x hy)
    rcases lookup_insert_cases hd hl with ⟨rfl,rfl⟩ | ⟨-,hl⟩
    · exact hb x (List.mem_cons_self ..)
    · exact hr n s hl

/-- What a build records of a package it settled on, with the requirements that states. -/
def Entry (u : Universe) (co : Checkout) (g : List Requirement) (n : Str) (s : Settled) : Prop :=
  ∃ c commit digest b, c.name = n ∧ Recorded u co c commit digest b ∧ b.problem = none ∧ b.stated = [] ∧ b.settled = s ∧
    ∀ q ∈ b.added, q ∈ g

structure Inv (u : Universe) (co : Checkout) (r : Run) : Prop where
  distinct : Distinct r.settled
  entries : ∀ n s, lookup r.settled n = some s → Entry u co r.gathered n s
  start : ∀ q ∈ (collectLocal co).1, q ∈ r.gathered

theorem Entry.mono (h : Entry u co g n s) (hg : ∀ q ∈ g, q ∈ g') : Entry u co g' n s := by
  obtain ⟨c,commit,digest,b,hn,hrec,hp,hs,hset,hadd⟩ := h
  exact ⟨c,commit,digest,b,hn,hrec,hp,hs,hset,fun q hq => hg q (hadd q hq)⟩

variable (u co previous r k) in
theorem bringEverything_problems : ∃ ps, (bringEverything u co previous k r).problems = r.problems ++ ps := by
  induction k generalizing r with
  | zero => exact ⟨_,rfl⟩
  | succ k ih =>
    rw [bringEverything]
    dsimp only
    split
    · exact ⟨_,rfl⟩
    · split
      · exact ⟨[],(List.append_nil _).symm⟩
      · split
        · exact ⟨_,by dsimp only; rw [(foldIn_same _ _).2.2,List.append_assoc,List.append_assoc]⟩
        · obtain ⟨ps,hps⟩ := ih (foldIn _ _)
          exact ⟨_,by rw [hps,(foldIn_same _ _).2.2,List.append_assoc]⟩

variable (previous) in
theorem foldIn_inv (hi : Inv u co r)
    (hb : ∀ x ∈ batch, x.2 = bring u co previous x.1 ∧ x.2.problem = none ∧ x.2.stated = []) : Inv u co (foldIn r batch) := by
  obtain ⟨hg,-,-⟩ := foldIn_same r batch
  have hold : ∀ q ∈ r.gathered, q ∈ (foldIn r batch).gathered := fun q hq => by
    rw [hg]
    exact List.mem_append_left _ hq
  obtain ⟨hd,he⟩ := foldIn_settled (P := Entry u co (foldIn r batch).gathered) hi.distinct
    (fun n s hl => (hi.entries n s hl).mono hold) fun x hx => by
      obtain ⟨heq,hp,hs⟩ := hb x hx
      obtain ⟨commit,digest,hrec⟩ := bring_recorded u co previous x.1 (by rw [← heq,hp])
      refine ⟨x.1,commit,digest,x.2,rfl,heq ▸ hrec,hp,hs,rfl,fun q hq => ?_⟩
      rw [hg]
      exact List.mem_append_right _ (List.mem_flatMap.mpr ⟨x,hx,hq⟩)
  exact ⟨hd,he,fun q hq => hold q (hi.start q hq)⟩

theorem filterMap_nil {A B : Type} {l : List A} {f : A → Option B} (h : l.filterMap f = []) : ∀ x ∈ l, f x = none := by
  simpa using h

/-- When the rounds end without a problem, what they settled on is recorded from its files and nothing
stands against the requirements. -/
theorem bringEverything_settles (hi : Inv u co r) (h : (bringEverything u co previous k r).problems = []) :
    Inv u co (bringEverything u co previous k r) ∧ Agreed (bringEverything u co previous k r).gathered := by
  induction k generalizing r with
  | zero =>
    rw [bringEverything] at h
    exact absurd (List.append_eq_nil_iff.mp h).2 nofun
  | succ k ih =>
    rw [bringEverything] at h ⊢
    dsimp only at h ⊢
    have hpins : ∀ q ∈ r.gathered, q ∈ (addLockPins previous (r.gathered,r.pinned)).1 := fun q hq =>
      addLockPins_subset (x := (r.gathered,r.pinned)) hq
    split
    · rename_i hf
      rw [if_pos hf] at h
      exact absurd (List.append_eq_nil_iff.mp h).2 hf
    · rename_i hf
      rw [if_neg hf] at h
      split
      · refine ⟨⟨hi.distinct,fun n s hl => (hi.entries n s hl).mono hpins,fun q hq => hpins q (hi.start q hq)⟩,?_⟩
        exact select_agreed.mp (by simpa using hf)
      · rename_i hb
        rw [if_neg hb] at h
        split
        · rename_i hrefused
          rw [if_pos hrefused] at h
          exact absurd (List.append_eq_nil_iff.mp h).2 hrefused
        · rename_i hrefused
          rw [if_neg hrefused] at h
          have hnone := filterMap_nil (not_not.mp hrefused)
          refine ih ?_ h
          obtain ⟨ps,hps⟩ := bringEverything_problems u co previous (foldIn _ _) k
          rw [hps,(foldIn_same _ _).2.2] at h
          have hstated := (List.append_eq_nil_iff.mp (List.append_eq_nil_iff.mp h).1).2
          rw [List.flatMap_eq_nil_iff] at hstated
          refine foldIn_inv previous ⟨hi.distinct,fun n s hl => (hi.entries n s hl).mono hpins,fun q hq => hpins q (hi.start q hq)⟩ ?_
          intro x hx
          refine ⟨?_,hnone x hx,hstated x hx⟩
          obtain ⟨c,-,rfl⟩ := List.mem_map.mp hx
          rfl

end Ens.Packages
