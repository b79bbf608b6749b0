import Ens.Packages.Settling
import Ens.Packages.Versions

/-! # Requirements in another order

A selection comes to the same for every order of the requirements exactly when they agree and every package that
names a repository has one spelling of its highest version: of two spellings the one met first is kept, and a report
names the requirement met first.
-/
set_option linter.all false
namespace Ens.Packages

structure Stated extends Requirement where
  statedBy : Str
  deriving DecidableEq, Repr

inductive Report
  | twoRepositories (name namedBy url statedBy other : Str)
  | twoMajors (name namedBy : Str) (version : Version) (statedBy : Str) (other : Version)
  deriving DecidableEq, Repr

def Report.problem : Report → Problem
  | twoRepositories name _ _ _ _ => .twoRepositories name
  | twoMajors name _ _ _ _ => .twoMajors name

def statedFor (gathered : List Stated) (name : Str) : List Stated := gathered.filter fun r => r.name = name

def agreedFrom (name : Str) : Str → Str → List Stated → Str × List Report
  | url,_,[] => (url,[])
  | url,namedBy,r :: rest =>
    if r.url = [] then agreedFrom name url namedBy rest
    else if url = [] then agreedFrom name r.url r.statedBy rest
    else if r.url ≠ url then ([],[.twoRepositories name namedBy url r.statedBy r.url])
    else agreedFrom name url namedBy rest

-- derives the equations once, for all the proofs below
attribute [local grind =] agreedFrom

def reportMajorSpan (name : Str) : List Stated → List Report
  | [] => []
  | first :: rest =>
    match (first :: rest).find? fun r => !sameMajor first.version r.version with
    | some r => [.twoMajors name first.statedBy first.version r.statedBy r.version]
    | none => []

def settle (gathered : List Stated) (name : Str) : Option Choice × List Report :=
  let mine := statedFor gathered name
  let agreed := agreedFrom name [] [] mine
  let reports := agreed.2 ++ reportMajorSpan name mine
  match highest (mine.map Stated.toRequirement) with
  | some version => (if agreed.1 = [] then none else some ⟨name,agreed.1,version⟩,reports)
  | none => (none,reports)

def selectStated (gathered : List Stated) : List Choice × List Report :=
  let settled := (names (gathered.map Stated.toRequirement)).map (settle gathered)
  (settled.filterMap Prod.fst,settled.flatMap Prod.snd)

/-- No requirement on a package that names a repository has another spelling of its highest version. -/
def OneSpelling (g : List Requirement) : Prop := ∀ q ∈ g, ∀ q' ∈ g, q.name = q'.name → (∃ p ∈ g, p.name = q.name ∧ p.url ≠ []) →
  (∀ p ∈ g, p.name = q.name → compare p.version q.version ≤ 0 ∧ compare p.version q'.version ≤ 0) → q.version = q'.version

variable {g g' : List Stated} {q r : Stated} {n url by₀ : Str} {mine : List Stated} {R : Report}

/-! ### A selection without what stated it -/

theorem map_statedFor : (statedFor g n).map Stated.toRequirement = forPackage (g.map Stated.toRequirement) n := by
  rw [statedFor,forPackage,List.filter_map]
  rfl

variable (n by₀ mine) in
theorem agreedFrom_named (hu : url ≠ []) : agreedFrom n url by₀ mine = (url,[]) ∧ (∀ r ∈ mine, r.url ≠ [] → r.url = url) ∨
    ∃ r ∈ mine, r.url ≠ [] ∧ r.url ≠ url ∧ agreedFrom n url by₀ mine = ([],[.twoRepositories n by₀ url r.statedBy r.url]) := by
  induction mine with
  | nil => exact .inl ⟨rfl,nofun⟩
  | cons r rest ih =>
    rw [agreedFrom,if_neg hu]
    have hmore (h : r.url ≠ [] → r.url = url) : agreedFrom n url by₀ rest = (url,[]) ∧ (∀ p ∈ r :: rest, p.url ≠ [] → p.url = url) ∨
        ∃ p ∈ r :: rest, p.url ≠ [] ∧ p.url ≠ url ∧ agreedFrom n url by₀ rest = ([],[.twoRepositories n by₀ url p.statedBy p.url]) := by
      rcases ih with ⟨he,hall⟩ | ⟨p,hp,hne,hdiff,he⟩
      · exact .inl ⟨he,List.forall_mem_cons.mpr ⟨h,hall⟩⟩
      · exact .inr ⟨p,List.mem_cons_of_mem r hp,hne,hdiff,he⟩
    by_cases hr : r.url = []
    · rw [if_pos hr]
      exact hmore fun hne => absurd hr hne
    · rw [if_neg hr]
      by_cases hs : r.url = url
      · rw [if_neg (not_not.mpr hs)]
        exact hmore fun _ => hs
      · rw [if_pos hs]
        exact .inr ⟨r,List.mem_cons_self ..,hr,hs,rfl⟩

variable (n mine) in
/-- What the requirements on a package name: nothing, one repository, or a second one that is reported beside the first. -/
theorem agreedFrom_cases : (agreedFrom n [] [] mine).2 = [] ∧ agreedUrl (mine.map Stated.toRequirement) = some (agreedFrom n [] [] mine).1 ∨
    agreedUrl (mine.map Stated.toRequirement) = none ∧ ∃ a b c, agreedFrom n [] [] mine =
      ([],[.twoRepositories n a (firstUrl (mine.map Stated.toRequirement)) b c]) := by
  induction mine with
  | nil => exact .inl ⟨rfl,rfl⟩
  | cons r rest ih =>
    rw [agreedFrom]
    by_cases hr : r.url = []
    · have hfirst : firstUrl ((r :: rest).map Stated.toRequirement) = firstUrl (rest.map Stated.toRequirement) := by
        rw [List.map_cons,firstUrl,if_pos hr]
      have hagreed : agreedUrl ((r :: rest).map Stated.toRequirement) = agreedUrl (rest.map Stated.toRequirement) := by
        rw [agreedUrl,hfirst]
        simp [agreedUrl,hr]
      rw [if_pos hr,hfirst,hagreed]
      exact ih
    · have hfirst : firstUrl ((r :: rest).map Stated.toRequirement) = r.url := by rw [List.map_cons,firstUrl,if_neg hr]
      rw [if_neg hr,if_pos rfl,hfirst]
      rcases agreedFrom_named n r.statedBy rest hr with ⟨he,hall⟩ | ⟨p,hp,hne,hdiff,he⟩
      · refine .inl ⟨by rw [he],?_⟩
        rw [he,agreedUrl,hfirst,if_pos]
        simpa [or_iff_not_imp_left] using hall
      · refine .inr ⟨agreedUrl_none.2 ⟨p.toRequirement,?_,hne,by rwa [hfirst]⟩,_,_,_,he⟩
        exact List.mem_map_of_mem (List.mem_cons_of_mem r hp)

variable (n mine) in
theorem reportMajorSpan_cases : spansMajors (mine.map Stated.toRequirement) = false ∧ reportMajorSpan n mine = [] ∨
    spansMajors (mine.map Stated.toRequirement) = true ∧ ∃ first rest a b, mine = first :: rest ∧
      reportMajorSpan n mine = [.twoMajors n first.statedBy first.version a b] := by
  cases mine with
  | nil => exact .inl ⟨rfl,rfl⟩
  | cons first rest =>
    have hspan : spansMajors ((first :: rest).map Stated.toRequirement) =
        (first :: rest).any fun r => !sameMajor first.version r.version := by
      rw [List.map_cons,spansMajors,← List.map_cons,List.any_map]
      rfl
    rw [hspan,reportMajorSpan]
    cases hf : (first :: rest).find? fun r => !sameMajor first.version r.version with
    | none =>
      refine .inl ⟨?_,rfl⟩
      simpa using List.find?_eq_none.mp hf
    | some r =>
      have hr := List.find?_some (p := fun r : Stated => !sameMajor first.version r.version) hf
      exact .inr ⟨List.any_eq_true.mpr ⟨r,List.mem_of_find?_eq_some hf,hr⟩,_,_,_,_,rfl,rfl⟩

theorem settle_eq : (settle g n).1 = choose (g.map Stated.toRequirement) n ∧
    (settle g n).2.map Report.problem = disagreements (g.map Stated.toRequirement) n := by
  have hreports : (settle g n).2 = (agreedFrom n [] [] (statedFor g n)).2 ++ reportMajorSpan n (statedFor g n) := by
    unfold settle
    dsimp only
    split <;> rfl
  refine ⟨?_,?_⟩
  · unfold settle choose
    dsimp only
    rw [map_statedFor]
    rcases agreedFrom_cases n (statedFor g n) with ⟨-,he⟩ | ⟨he,a,b,c,hf⟩
    · rw [map_statedFor] at he
      rw [he]
      split <;> rename_i hh <;> rw [hh]
    · rw [map_statedFor] at he
      rw [he,hf]
      split <;> rfl
  · rw [hreports,List.map_append,disagreements,← map_statedFor]
    congr 1
    · rcases agreedFrom_cases n (statedFor g n) with ⟨h0,he⟩ | ⟨he,a,b,c,hf⟩
      · rw [h0,he]
        rfl
      · rw [hf,he]
        rfl
    · rcases reportMajorSpan_cases n (statedFor g n) with ⟨h0,he⟩ | ⟨h0,first,rest,a,b,-,he⟩
      · rw [h0,he]
        rfl
      · rw [h0,he]
        rfl

/-- Leaving out what states the requirements, a selection is the choices and the problems of the requirements. -/
theorem selectStated_select : (selectStated g).1 = (select (g.map Stated.toRequirement)).1 ∧
    (selectStated g).2.map Report.problem = (select (g.map Stated.toRequirement)).2 := by
  constructor
  · rw [selectStated,select,List.filterMap_map]
    exact List.filterMap_congr fun n _ => settle_eq.1
  · rw [selectStated,select,List.map_flatMap,List.flatMap_map]
    exact List.flatMap_congr fun n _ => settle_eq.2

/-! ### What a selection names first -/

theorem mem_statedFor : q ∈ statedFor g n ↔ q ∈ g ∧ q.name = n := by
  simp [statedFor]

theorem mem_selectStated : R ∈ (selectStated g).2 ↔ ∃ q ∈ g, R ∈ (settle g q.name).2 := by
  simp [selectStated,mem_names]

theorem settle_reports : (settle g n).2 = (agreedFrom n [] [] (statedFor g n)).2 ++ reportMajorSpan n (statedFor g n) := by
  unfold settle
  dsimp only
  split <;> rfl

theorem first_repository {a b c u : Str} (h : .twoRepositories n a u b c ∈ (selectStated g).2) :
    u = firstUrl ((statedFor g n).map Stated.toRequirement) := by
  obtain ⟨q,-,hq⟩ := mem_selectStated.1 h
  rw [settle_reports,List.mem_append] at hq
  rcases hq with hq | hq
  · rcases agreedFrom_cases q.name (statedFor g q.name) with ⟨h0,-⟩ | ⟨-,a',b',c',hf⟩
    · rw [h0] at hq
      cases hq
    · rw [hf] at hq
      cases List.mem_singleton.mp hq
      rfl
  · rcases reportMajorSpan_cases q.name (statedFor g q.name) with ⟨-,h0⟩ | ⟨-,first,rest,a',b',-,hf⟩
    · rw [h0] at hq
      cases hq
    · rw [hf] at hq
      cases List.mem_singleton.mp hq

theorem first_version {a b : Str} {v w : Version} (h : .twoMajors n a v b w ∈ (selectStated g).2) :
    ∃ first rest, statedFor g n = first :: rest ∧ first.version = v := by
  obtain ⟨q,-,hq⟩ := mem_selectStated.1 h
  rw [settle_reports,List.mem_append] at hq
  rcases hq with hq | hq
  · rcases agreedFrom_cases q.name (statedFor g q.name) with ⟨h0,-⟩ | ⟨-,a',b',c',hf⟩
    · rw [h0] at hq
      cases hq
    · rw [hf] at hq
      cases List.mem_singleton.mp hq
  · rcases reportMajorSpan_cases q.name (statedFor g q.name) with ⟨-,h0⟩ | ⟨-,first,rest,a',b',hmine,hf⟩
    · rw [h0] at hq
      cases hq
    · rw [hf] at hq
      cases List.mem_singleton.mp hq
      exact ⟨first,rest,hmine,rfl⟩

theorem mem_choices {c : Choice} : c ∈ (selectStated g).1 ↔ choose (g.map Stated.toRequirement) c.name = some c := by
  rw [selectStated_select.1,select]
  simp only [List.mem_filterMap]
  constructor
  · rintro ⟨n,-,hn⟩
    have : c.name = n := by
      unfold choose at hn
      split at hn
      · split at hn
        · cases hn
        · cases hn
          rfl
      · cases hn
    rwa [this]
  · intro hc
    refine ⟨c.name,?_,hc⟩
    by_contra hname
    have hnil : forPackage (g.map Stated.toRequirement) c.name = [] := by
      refine List.filter_eq_nil_iff.mpr fun r hr => ?_
      simpa using fun he => hname (mem_names.mpr ⟨r,hr,he⟩)
    rw [choose,hnil] at hc
    cases hc

/-! ### In any order -/

theorem names_perm {l l' : List Requirement} (h : l'.Perm l) : names l' = names l := by
  refine List.Perm.eq_of_pairwise' (List.pairwise_insertionSort ..) (List.pairwise_insertionSort ..) ?_
  exact (List.perm_insertionSort ..).trans (((h.map _).dedup).trans (List.perm_insertionSort ..).symm)

theorem statedFor_front (h : q ∈ g) : (q :: g.erase q).Perm g ∧ statedFor (q :: g.erase q) q.name = q :: statedFor (g.erase q) q.name := by
  refine ⟨(List.perm_cons_erase h).symm,?_⟩
  rw [statedFor,List.filter_cons_of_pos (by simp)]
  rfl

section
variable {l l' : List Requirement}

theorem Agreed.perm (ha : Agreed l) (hp : l'.Perm l) : Agreed l' :=
  fun q hq q' hq' => ha q (hp.mem_iff.mp hq) q' (hp.mem_iff.mp hq')

theorem forPackage_perm (hp : l'.Perm l) : (forPackage l' n).Perm (forPackage l n) := hp.filter _

theorem Agreed.repository (ha : Agreed l) : agreedUrl (forPackage l n) = some (firstUrl (forPackage l n)) := by
  refine if_pos (List.all_eq_true.mpr fun q hq => ?_)
  by_cases hu : q.url = []
  · simp [hu]
  · obtain ⟨p,hp,he⟩ := firstUrl_mem (firstUrl_ne hq hu)
    obtain ⟨hq,hqn⟩ := mem_forPackage.mp hq
    obtain ⟨hpl,hpn⟩ := mem_forPackage.mp hp
    have := (ha q hq p hpl (hqn.trans hpn.symm)).1 hu (by rw [he]; exact firstUrl_ne (mem_forPackage.mpr ⟨hq,hqn⟩) hu)
    simp [this,he]

theorem Agreed.choose_eq (ha : Agreed l) {v : Version} (hv : highest (forPackage l n) = some v) :
    choose l n = if firstUrl (forPackage l n) = [] then none else some ⟨n,firstUrl (forPackage l n),v⟩ := by
  rw [choose,ha.repository,hv]

theorem Agreed.firstUrl_perm (ha : Agreed l) (hp : l'.Perm l) : firstUrl (forPackage l' n) = firstUrl (forPackage l n) := by
  have hsame {a b : List Requirement} (hb : Agreed b) (hab : a.Perm b) (hne : firstUrl (forPackage a n) ≠ []) :
      firstUrl (forPackage a n) = firstUrl (forPackage b n) := by
    obtain ⟨q,hq,he⟩ := firstUrl_mem hne
    have hq := (forPackage_perm hab).mem_iff.mp hq
    obtain ⟨p,hp,he'⟩ := firstUrl_mem (firstUrl_ne hq (by rwa [he]))
    obtain ⟨hqb,hqn⟩ := mem_forPackage.mp hq
    obtain ⟨hpb,hpn⟩ := mem_forPackage.mp hp
    rw [← he,← he']
    exact (hb q hqb p hpb (hqn.trans hpn.symm)).1 (by rwa [he]) (by rw [he']; exact firstUrl_ne hq (by rwa [he]))
  by_cases h' : firstUrl (forPackage l' n) = []
  · by_cases h : firstUrl (forPackage l n) = []
    · rw [h,h']
    · exact (hsame (ha.perm hp) hp.symm h).symm
  · exact hsame ha hp h'

theorem choose_perm (ha : Agreed l) (ho : OneSpelling l) (hp : l'.Perm l) : choose l' n = choose l n := by
  have hperm := forPackage_perm (n := n) hp
  by_cases hnil : forPackage l n = []
  · have hnil' : forPackage l' n = [] := by rwa [← List.length_eq_zero_iff,hperm.length_eq,List.length_eq_zero_iff]
    rw [choose,choose,hnil,hnil']
  · have hnil' : forPackage l' n ≠ [] := by
      rwa [Ne,← List.length_eq_zero_iff,hperm.length_eq,List.length_eq_zero_iff]
    obtain ⟨v,hv⟩ := highest_some hnil
    obtain ⟨v',hv'⟩ := highest_some hnil'
    rw [ha.choose_eq hv,(ha.perm hp).choose_eq hv',ha.firstUrl_perm hp]
    by_cases hu : firstUrl (forPackage l n) = []
    · rw [if_pos hu,if_pos hu]
    · obtain ⟨⟨q,hq,rfl⟩,hall⟩ := highest_spec hv
      obtain ⟨⟨q',hq',rfl⟩,hall'⟩ := highest_spec hv'
      have hq' := hperm.mem_iff.mp hq'
      obtain ⟨hql,hqn⟩ := mem_forPackage.mp hq
      obtain ⟨hql',hqn'⟩ := mem_forPackage.mp hq'
      obtain ⟨o,ho',hou⟩ := firstUrl_mem hu
      obtain ⟨hol,hon⟩ := mem_forPackage.mp ho'
      have hone := ho q hql q' hql' (hqn.trans hqn'.symm) ⟨o,hol,hon.trans hqn.symm,by rwa [hou]⟩ fun p hpl hpn => by
        have hpm := mem_forPackage.mpr ⟨hpl,hpn.trans hqn⟩
        exact ⟨compare_nonpos.mpr (hall p hpm),compare_nonpos.mpr (hall' p (hperm.mem_iff.mpr hpm))⟩
      rw [hone]

end

section
variable (hsame : ∀ g' : List Stated, g'.Perm g → selectStated g' = selectStated g)
include hsame

theorem select_front (hq : q ∈ g) : selectStated (q :: g.erase q) = selectStated g := hsame _ (statedFor_front hq).1

theorem one_repository {q' : Stated} (hq : q ∈ g) (hq' : q' ∈ g) (hn : q.name = q'.name) (hu : q.url ≠ []) (hu' : q'.url ≠ []) :
    q.url = q'.url := by
  have hfirst {p : Stated} (hp : p ∈ g) (hpu : p.url ≠ []) :
      firstUrl ((statedFor (p :: g.erase p) p.name).map Stated.toRequirement) = p.url := by
    rw [(statedFor_front hp).2,List.map_cons,firstUrl,if_neg hpu]
  by_contra hne
  have hnone : agreedUrl ((statedFor (q :: g.erase q) q.name).map Stated.toRequirement) = none := by
    refine agreedUrl_none.2 ⟨q'.toRequirement,List.mem_map_of_mem (mem_statedFor.2 ⟨?_,hn.symm⟩),hu',?_⟩
    · exact (statedFor_front hq).1.mem_iff.mpr hq'
    · rw [hfirst hq hu]
      exact Ne.symm hne
  rcases agreedFrom_cases q.name (statedFor (q :: g.erase q) q.name) with ⟨-,he⟩ | ⟨-,a,b,c,hf⟩
  · rw [he] at hnone
    cases hnone
  · have hreport : .twoRepositories q.name a q.url b c ∈ (selectStated (q :: g.erase q)).2 := by
      refine mem_selectStated.2 ⟨q,List.mem_cons_self ..,?_⟩
      rw [settle_reports,hf,hfirst hq hu]
      exact List.mem_append_left _ (List.mem_singleton_self _)
    rw [select_front hsame hq,← select_front hsame hq'] at hreport
    have := first_repository hreport
    rw [hn,hfirst hq' hu'] at this
    exact hne this

theorem one_major {q' : Stated} (hq : q ∈ g) (hq' : q' ∈ g) (hn : q.name = q'.name) : q.version.major = q'.version.major := by
  by_contra hne
  rcases reportMajorSpan_cases q.name (statedFor (q :: g.erase q) q.name) with ⟨hs,-⟩ | ⟨-,first,rest,a,b,hm,hf⟩
  · have hin {p : Stated} (hp : p ∈ g) (hpn : p.name = q.name) :
        p.toRequirement ∈ (statedFor (q :: g.erase q) q.name).map Stated.toRequirement :=
      List.mem_map_of_mem (mem_statedFor.2 ⟨(statedFor_front hq).1.mem_iff.mpr hp,hpn⟩)
    exact hne (spansMajors_false.mp hs _ (hin hq rfl) _ (hin hq' hn.symm))
  · rw [(statedFor_front hq).2] at hm
    obtain ⟨rfl,-⟩ := List.cons.inj hm
    have hreport : .twoMajors q.name q.statedBy q.version a b ∈ (selectStated (q :: g.erase q)).2 := by
      refine mem_selectStated.2 ⟨q,List.mem_cons_self ..,?_⟩
      rw [settle_reports,hf]
      exact List.mem_append_right _ (List.mem_singleton_self _)
    rw [select_front hsame hq,← select_front hsame hq'] at hreport
    obtain ⟨first,rest,hm',hv⟩ := first_version hreport
    rw [hn,(statedFor_front hq').2] at hm'
    obtain ⟨rfl,-⟩ := List.cons.inj hm'
    exact hne (by rw [hv])

theorem one_spelling (ha : Agreed (g.map Stated.toRequirement)) : OneSpelling (g.map Stated.toRequirement) := by
  intro q₀ hq₀ q₀' hq₀' hn hurl hhigh
  obtain ⟨q,hq,rfl⟩ := List.mem_map.mp hq₀
  obtain ⟨q',hq',rfl⟩ := List.mem_map.mp hq₀'
  have hchoice {p : Stated} (hp : p ∈ g) (hpn : p.name = q.name)
      (hmax : ∀ r ∈ g.map Stated.toRequirement, r.name = q.name → weight r.version ≤ weight p.version) :
      ∃ u, (⟨p.name,u,p.version⟩ : Choice) ∈ (selectStated g).1 := by
    have hperm := (statedFor_front hp).1.map Stated.toRequirement
    have hmine : forPackage ((p :: g.erase p).map Stated.toRequirement) p.name =
        p.toRequirement :: forPackage ((g.erase p).map Stated.toRequirement) p.name := by
      rw [List.map_cons,forPackage,List.filter_cons_of_pos (by simp)]
      rfl
    have hv : highest (forPackage ((p :: g.erase p).map Stated.toRequirement) p.name) = some p.version := by
      rw [hmine]
      refine highest_first fun r hr => ?_
      obtain ⟨hr,hrn⟩ := mem_forPackage.mp hr
      exact hmax r (hperm.mem_iff.mp (by rw [List.map_cons]; exact List.mem_cons_of_mem _ hr)) (hrn.trans hpn)
    obtain ⟨o,ho,hon,hou⟩ := hurl
    have hne := firstUrl_ne (mem_forPackage.mpr ⟨hperm.mem_iff.mpr ho,hon.trans hpn.symm⟩) hou
    refine ⟨firstUrl (forPackage ((p :: g.erase p).map Stated.toRequirement) p.name),?_⟩
    rw [← select_front hsame hp,mem_choices]
    dsimp only
    rw [(ha.perm hperm).choose_eq hv,if_neg hne]
  obtain ⟨u,hu⟩ := hchoice hq rfl fun r hr hrn => compare_nonpos.mp (hhigh r hr hrn).1
  obtain ⟨u',hu'⟩ := hchoice hq' hn.symm fun r hr hrn => compare_nonpos.mp (hhigh r hr hrn).2
  have h := mem_choices.1 hu
  have h' := mem_choices.1 hu'
  dsimp only at h h' hn
  rw [← hn,h] at h'
  exact (Choice.mk.inj (Option.some.inj h')).2.2

end

/-- A selection comes to the same for every order of the requirements exactly when they agree and each package that
names a repository has one spelling of its highest version. -/
theorem selectStated_perm (g : List Stated) : (∀ g' : List Stated, g'.Perm g → selectStated g' = selectStated g) ↔
    Agreed (g.map Stated.toRequirement) ∧ OneSpelling (g.map Stated.toRequirement) := by
  constructor
  · intro hsame
    have ha : Agreed (g.map Stated.toRequirement) := by
      intro q₀ hq₀ q₀' hq₀' hn
      obtain ⟨q,hq,rfl⟩ := List.mem_map.mp hq₀
      obtain ⟨q',hq',rfl⟩ := List.mem_map.mp hq₀'
      exact ⟨one_repository hsame hq hq' hn,one_major hsame hq hq' hn⟩
    exact ⟨ha,one_spelling hsame ha⟩
  · rintro ⟨ha,ho⟩ g' hp
    have hp' := hp.map Stated.toRequirement
    refine Prod.ext ?_ ?_
    · rw [selectStated_select.1,selectStated_select.1,select,select,names_perm hp']
      exact List.filterMap_congr fun n _ => choose_perm ha ho hp'
    · have hnil {l : List Stated} (hl : Agreed (l.map Stated.toRequirement)) : (selectStated l).2 = [] := by
        have := selectStated_select.2.trans (select_agreed.mpr hl)
        exact List.map_eq_nil_iff.mp this
      rw [hnil ha,hnil (ha.perm hp')]

/-- Two spellings of one version. -/
theorem select_spellings : ∃ g g' : List Stated, g'.Perm g ∧ selectStated g' ≠ selectStated g := by
  let a : Stated := ⟨⟨[112],⟨[2,0],[50,46,48]⟩,[117]⟩,[97]⟩
  let b : Stated := ⟨⟨[112],⟨[2,0,0],[50,46,48,46,48]⟩,[117]⟩,[98]⟩
  exact ⟨[a,b],[b,a],List.Perm.swap ..,by decide⟩

end Ens.Packages
