import Ens.Packages.Sound

/-! # What the pins of a lock keep

A package is looked up in the lock once, by the round that first gathers a requirement on it. Where none of those
names its repository nothing is pinned, and the package stays at the locked version or above only if a manifest
requires as much.
-/
set_option linter.all false
namespace Ens.Packages
open Entries
variable {u : Universe} {co : Checkout} {previous lock : Lockfile} {r : Run} {g g' : List Requirement} {n : Str} {q : Requirement}
variable {k m : ℕ} {s : Settled} {p p' : LockPackage} {v w : Version} {locked : Bool}

/-! ### Looking a package up -/

theorem pin_congr (h : forPackage g n = forPackage g' n) : pin previous g n = pin previous g' n := by
  unfold pin
  rw [h]

theorem forPackage_append : forPackage (g ++ g') n = forPackage g n ++ forPackage g' n := List.filter_append ..

theorem forPackage_pin {l : Str} : forPackage (pin previous g l).toList n = if l = n then (pin previous g n).toList else [] := by
  cases hp : pin previous g l with
  | none =>
    split
    · rename_i hl
      rw [← hl,hp]
      rfl
    · rfl
  | some q =>
    obtain ⟨-,-,-,hn,-,-⟩ := pin_mem hp
    by_cases hl : l = n
    · rw [if_pos hl,← hl,hp]
      simp [forPackage,hn]
    · rw [if_neg hl]
      simp [forPackage,hn,hl]

theorem addLockPins_forPackage (x : List Requirement × List Str) : forPackage (addLockPins previous x).1 n =
    forPackage x.1 n ++ (if forPackage x.1 n ≠ [] ∧ n ∉ x.2 then (pin previous x.1 n).toList else []) ∧
    (n ∈ (addLockPins previous x).2 ↔ n ∈ x.2 ∨ forPackage x.1 n ≠ []) := by
  have hfold (ns : List Str) (y : List Requirement × List Str) : forPackage (ns.foldl (pinOne previous) y).1 n =
      forPackage y.1 n ++ (if n ∈ ns ∧ n ∉ y.2 then (pin previous y.1 n).toList else []) ∧
      (n ∈ (ns.foldl (pinOne previous) y).2 ↔ n ∈ y.2 ∨ n ∈ ns) := by
    induction ns generalizing y with
    | nil => simp
    | cons l ns ih =>
      obtain ⟨hf,hm⟩ := ih (pinOne previous y l)
      rw [List.foldl_cons,hf,hm]
      unfold pinOne
      by_cases hl : l ∈ y.2
      · rw [if_pos hl]
        by_cases hn : n = l
        · subst hn
          simp [hl]
        · simp [hn]
      · rw [if_neg hl]
        by_cases hn : l = n
        · subst hn
          simp [forPackage_append,forPackage_pin,hl]
        · have hsame : forPackage (y.1 ++ (pin previous y.1 l).toList) n = forPackage y.1 n := by
            rw [forPackage_append,forPackage_pin,if_neg hn,List.append_nil]
          rw [pin_congr hsame,hsame]
          simp [Ne.symm hn]
  have hnames : n ∈ names x.1 ↔ forPackage x.1 n ≠ [] := by
    rw [mem_names]
    constructor
    · rintro ⟨q,hq,hn⟩
      exact List.ne_nil_of_mem (mem_forPackage.mpr ⟨hq,hn⟩)
    · intro hne
      obtain ⟨q,hq⟩ := List.exists_mem_of_ne_nil _ hne
      exact ⟨q,mem_forPackage.mp hq⟩
  simp only [← hnames]
  exact hfold _ x

/-! ### The round that first requires a package -/

def requiredAt (u : Universe) (co : Checkout) (previous : Lockfile) (n : Str) (m : ℕ) : List Requirement :=
  forPackage (stage u co previous (starting co) m).gathered n

structure FirstAt (u : Universe) (co : Checkout) (previous : Lockfile) (n : Str) (k : ℕ) : Prop where
  required : requiredAt u co previous n k ≠ []
  before : ∀ i < k, requiredAt u co previous n i = []

/-- The requirements by which a package is first met name its repository. -/
def MetWithUrl (u : Universe) (co : Checkout) (previous : Lockfile) (n : Str) : Prop :=
  ∃ k, FirstAt u co previous n k ∧ ∃ q ∈ requiredAt u co previous n k, q.url ≠ []

/-- A requirement the checkout states, or a manifest that a round brought in. -/
def Manifested (u : Universe) (co : Checkout) (previous : Lockfile) (q : Requirement) : Prop := q ∈ (collectLocal co).1 ∨
  ∃ m, (∀ i ≤ m, GoesOn u co previous (stage u co previous (starting co) i)) ∧
    ∃ b ∈ batch u co previous ((stage u co previous (starting co) m).pin previous), q ∈ b.2.added

theorem requiredAt_pin : forPackage ((stage u co previous (starting co) m).pin previous).gathered n = requiredAt u co previous n m ++
    if requiredAt u co previous n m ≠ [] ∧ n ∉ (stage u co previous (starting co) m).pinned then
      (pin previous (stage u co previous (starting co) m).gathered n).toList else [] :=
  (addLockPins_forPackage ((stage u co previous (starting co) m).gathered,(stage u co previous (starting co) m).pinned)).1

theorem requiredAt_prefix : requiredAt u co previous n m <+: requiredAt u co previous n (m + 1) := by
  rw [requiredAt,requiredAt,stage_succ]
  have hpins : (stage u co previous (starting co) m).gathered <+: ((stage u co previous (starting co) m).pin previous).gathered := by
    obtain ⟨pins,hp,-⟩ := pin_gathered previous (stage u co previous (starting co) m)
    rw [hp]
    exact List.prefix_append ..
  have hadded : ((stage u co previous (starting co) m).pin previous).gathered <+:
      ((stage u co previous (starting co) m).next u co previous).gathered := by
    rw [Run.next,Run.fold_same.1]
    exact List.prefix_append ..
  exact forPackage_isPrefixOf (hpins.trans hadded)

theorem pinned_iff : n ∈ (stage u co previous (starting co) m).pinned ↔ ∃ i < m, requiredAt u co previous n i ≠ [] := by
  induction m with
  | zero => exact iff_of_false nofun nofun
  | succ m ih =>
    have hpinned : (stage u co previous (starting co) (m + 1)).pinned = ((stage u co previous (starting co) m).pin previous).pinned := by
      rw [stage_succ]
      exact Run.fold_same.2.1
    rw [hpinned]
    refine (addLockPins_forPackage _).2.trans ?_
    dsimp only
    rw [ih]
    constructor
    · rintro (⟨i,hi,hne⟩ | hne)
      · exact ⟨i,by omega,hne⟩
      · exact ⟨m,by omega,hne⟩
    · rintro ⟨i,hi,hne⟩
      rcases Nat.lt_or_eq_of_le (Nat.le_of_lt_succ hi) with hi | rfl
      · exact .inl ⟨i,hi,hne⟩
      · exact .inr hne

theorem FirstAt.pinned (h : FirstAt u co previous n k) : n ∉ (stage u co previous (starting co) k).pinned := by
  rw [pinned_iff]
  rintro ⟨i,hi,hne⟩
  exact hne (h.before i hi)

theorem required_cases (hgo : ∀ i < m, GoesOn u co previous (stage u co previous (starting co) i))
    (h : q ∈ forPackage ((stage u co previous (starting co) m).pin previous).gathered n) :
    Manifested u co previous q ∨ ∃ k, FirstAt u co previous n k ∧ pin previous (stage u co previous (starting co) k).gathered n = some q := by
  have hpin {m : ℕ} (hq : q ∈ forPackage ((stage u co previous (starting co) m).pin previous).gathered n) :
      q ∈ requiredAt u co previous n m ∨
        ∃ k, FirstAt u co previous n k ∧ pin previous (stage u co previous (starting co) k).gathered n = some q := by
    rw [requiredAt_pin] at hq
    rcases List.mem_append.mp hq with hq | hq
    · exact .inl hq
    · split at hq
      · rename_i hfirst
        refine .inr ⟨m,⟨hfirst.1,fun i hi => ?_⟩,Option.mem_toList.mp hq⟩
        by_contra hne
        exact hfirst.2 (pinned_iff.mpr ⟨i,hi,hne⟩)
      · cases hq
  induction m with
  | zero =>
    rcases hpin h with hq | hq
    · exact .inl (.inl (mem_forPackage.mp hq).1)
    · exact .inr hq
  | succ m ih =>
    rcases hpin h with hq | hq
    · obtain ⟨hq,hn⟩ := mem_forPackage.mp hq
      rw [stage_succ,Run.next,Run.fold_same.1] at hq
      rcases List.mem_append.mp hq with hq | hq
      · exact ih (fun i hi => hgo i (by omega)) (mem_forPackage.mpr ⟨hq,hn⟩)
      · obtain ⟨b,hb,hadd⟩ := List.mem_flatMap.mp hq
        exact .inl (.inr ⟨m,fun i hi => hgo i (by omega),b,hb,hadd⟩)
    · exact .inr hq

/-! ### The version chosen -/

theorem requiredAt_mono {i j : ℕ} (h : i ≤ j) : requiredAt u co previous n i <+: requiredAt u co previous n j := by
  induction h with
  | refl => exact List.prefix_rfl
  | step _ ih => exact ih.trans requiredAt_prefix

theorem requiredAt_pinned : requiredAt u co previous n m <+:
    forPackage ((stage u co previous (starting co) m).pin previous).gathered n := by
  rw [requiredAt_pin]
  exact List.prefix_append ..

theorem pinnedAt_mono (h : k ≤ m) : forPackage ((stage u co previous (starting co) k).pin previous).gathered n <+:
    forPackage ((stage u co previous (starting co) m).pin previous).gathered n := by
  rcases Nat.lt_or_eq_of_le h with h | rfl
  · have hnext : forPackage ((stage u co previous (starting co) k).pin previous).gathered n <+: requiredAt u co previous n (k + 1) := by
      rw [requiredAt,stage_succ,Run.next,Run.fold_same.1]
      exact forPackage_isPrefixOf (List.prefix_append ..)
    exact hnext.trans ((requiredAt_mono h).trans requiredAt_pinned)
  · exact List.prefix_rfl

theorem FirstAt.le (h : FirstAt u co previous n k) (hq : q ∈ forPackage ((stage u co previous (starting co) m).pin previous).gathered n) :
    k ≤ m := by
  by_contra hlt
  rw [requiredAt_pin,h.before m (by omega)] at hq
  simp at hq

theorem pin_url {g : List Requirement} (h : pin previous g n = some q) : ∃ q ∈ forPackage g n, q.url ≠ [] := by
  unfold pin at h
  split at h
  · cases h
  · rename_i first rest hcons
    dsimp only at h
    split at h
    · cases h
    · rename_i hne
      obtain ⟨o,ho,hou⟩ := firstUrl_mem hne
      exact ⟨o,hcons ▸ ho,hou ▸ hne⟩

theorem Manifested.mem (h : Manifested u co previous q) (hb : batch u co previous ((stage u co previous (starting co) m).pin previous) = []) :
    q ∈ forPackage ((stage u co previous (starting co) m).pin previous).gathered q.name := by
  rcases h with h | ⟨j,hgo,b,hbm,hq⟩
  · have hstart : q ∈ requiredAt u co previous q.name 0 := mem_forPackage.mpr ⟨h,rfl⟩
    exact requiredAt_pinned.subset ((requiredAt_mono (Nat.zero_le m)).subset hstart)
  · have hlt : j < m := by
      by_contra hle
      exact (hgo m (by omega)).2.1 hb
    have hnext : q ∈ requiredAt u co previous q.name (j + 1) := by
      rw [requiredAt,stage_succ,Run.next,Run.fold_same.1]
      exact mem_forPackage.mpr ⟨List.mem_append_right _ (List.mem_flatMap.mpr ⟨b,hbm,hq⟩),rfl⟩
    exact requiredAt_pinned.subset ((requiredAt_mono hlt).subset hnext)

/-- A package is pinned by the round that first requires it where that names the repository of the lock. -/
theorem FirstAt.pin {url : Str} (h : FirstAt u co previous n k) (hp : previous.find n = some p) (hw : parsed p.version = some w)
    (hurl : firstUrl (requiredAt u co previous n k) = url) (hne : url ≠ []) (hsame : p.url = url)
    (hmajor : ∀ q ∈ requiredAt u co previous n k, q.version.major = w.major) :
    (⟨n,w,url⟩ : Requirement) ∈ forPackage ((stage u co previous (starting co) k).pin previous).gathered n := by
  have hpin : Packages.pin previous (stage u co previous (starting co) k).gathered n = some ⟨n,w,url⟩ := by
    have hreq := h.required
    unfold requiredAt at hurl hmajor hreq
    unfold Packages.pin
    split
    · rename_i hnil
      exact absurd hnil hreq
    · rename_i first rest hcons
      rw [hcons] at hurl hmajor
      dsimp only
      rw [hurl,if_neg hne,hp]
      dsimp only
      rw [if_neg (not_not.mpr hsame),hw]
      exact if_pos (beq_iff_eq.mpr (hmajor first (List.mem_cons_self ..)).symm)
  rw [requiredAt_pin,if_pos ⟨h.required,h.pinned⟩,hpin]
  exact List.mem_append_right _ (List.mem_singleton_self _)

/-- A package that comes from the repository the lock records, in the same major version, stays at the recorded version or
above exactly when the requirements by which it is first met name that repository, or a manifest requires as much. -/
theorem resolve_keeps (h : resolve u co (some previous) locked = .ok (some lock)) (hp : previous.find n = some p)
    (hp' : lock.find n = some p') (hurl : p'.url = p.url) (hw : parsed p.version = some w) (hv : parsed p'.version = some v)
    (hm : sameMajor w v = true) : 0 ≤ compare v w ↔ MetWithUrl u co previous n ∨
      ∃ q, Manifested u co previous q ∧ q.name = n ∧ 0 ≤ compare q.version w := by
  obtain ⟨hnone,hlock,-⟩ := resolve_ok h
  obtain ⟨hi,hr,-,ha,ho⟩ := settling_clean hnone
  rw [find_recorded hi hlock] at hp'
  obtain ⟨s,hs,rfl⟩ := Option.map_eq_some_iff.mp hp'
  obtain ⟨v',hhigh,hpar,hsurl,hne⟩ := settled_highest hr ha ho hs
  obtain rfl := Option.some.inj (hpar.symm.trans hv)
  obtain ⟨m,-,hgo,-,hb,heq⟩ := bringEverything_clean hnone
  have hend : settling u co (some previous) = (stage u co previous (starting co) m).pin previous := heq
  rw [hend] at hhigh hsurl ha
  obtain ⟨⟨q,hq,hqv⟩,hall⟩ := highest_spec hhigh
  constructor
  · intro hle
    rcases required_cases hgo hq with hman | ⟨k,hk,hpin⟩
    · exact .inr ⟨q,hman,(mem_forPackage.mp hq).2,hqv ▸ hle⟩
    · exact .inl ⟨k,hk,pin_url hpin⟩
  · rintro (⟨k,hk,o,hok,hou⟩ | ⟨o,hman,rfl,hle⟩)
    · have hkm := hk.le hq
      have hpre : requiredAt u co previous n k <+: forPackage ((stage u co previous (starting co) m).pin previous).gathered n :=
        requiredAt_pinned.trans (pinnedAt_mono hkm)
      have hfirst : firstUrl (requiredAt u co previous n k) = s.url := by
        obtain ⟨rest,hrest⟩ := hpre
        rw [hsurl,← hrest,firstUrl_append (firstUrl_ne hok hou)]
      have hmajor (o : Requirement) (ho : o ∈ requiredAt u co previous n k) : o.version.major = w.major := by
        obtain ⟨hog,hon⟩ := mem_forPackage.mp (hpre.subset ho)
        obtain ⟨hqg,hqn⟩ := mem_forPackage.mp hq
        rw [(ha o hog q hqg (hon.trans hqn.symm)).2,hqv]
        exact (beq_iff_eq.mp hm).symm
      have hpinned := hk.pin hp hw hfirst hne hurl.symm hmajor
      exact compare_nonneg.mpr (hall _ ((pinnedAt_mono hkm).subset hpinned))
    · exact compare_nonneg.mpr ((compare_nonneg.mp hle).trans (hall o (hman.mem hb)))

/-! ### A package met before its repository -/

/-- An application that requires `b` at `1.0`, from its repository where it says so, and `c`, which requires `b` from there. -/
def requiring (hasSource : Bool) : Checkout where
  root := package [120] [⟨[98],true,[49,46,48],hasSource,[104,98]⟩,required [99] [49,46,48]]
  enclosing := []
  overrides := []

/-- A lock that records `b` at `1.5`. -/
def recordsLater : Lockfile where
  rootName := [120]
  packages := [recorded [98] [49,46,53] [],recorded [99] [49,46,48] [([98],[49,46,48])]]

theorem resolve_keeps_later : 0 ≤ compare ⟨[1,5],[49,46,53]⟩ ⟨[1,5],[49,46,53]⟩ ↔
    MetWithUrl elsewhere (requiring true) recordsLater [98] ∨
      ∃ q, Manifested elsewhere (requiring true) recordsLater q ∧ q.name = [98] ∧ 0 ≤ compare q.version ⟨[1,5],[49,46,53]⟩ :=
  resolve_keeps (show resolve elsewhere (requiring true) (some recordsLater) false = .ok (some recordsLater) by decide +kernel)
    (show recordsLater.find [98] = some (recorded [98] [49,46,53] []) by decide +kernel)
    (show recordsLater.find [98] = some (recorded [98] [49,46,53] []) by decide +kernel) rfl (by decide +kernel) (by decide +kernel) rfl

/-- The lock is consulted before `c` names the repository of `b`, and never again. -/
theorem steps_back : recordsLater.find [98] = some (recorded [98] [49,46,53] []) ∧
    resolve elsewhere (requiring false) (some recordsLater) false =
      .ok (some { recordsLater with packages := [recorded [98] [49,46,48] [],recorded [99] [49,46,48] [([98],[49,46,48])]] }) ∧
    compare ⟨[1,0],[49,46,48]⟩ ⟨[1,5],[49,46,53]⟩ < 0 := by
  decide +kernel

end Ens.Packages
