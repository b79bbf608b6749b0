import Ens.Packages.LockEntries
import Ens.Packages.Sound

/-! # What a lock file carries back

A lock comes back from the text it is rendered as exactly when each field is one word of the format.
-/
set_option linter.all false
namespace Ens.Packages
variable {l k : Lockfile} {d e : Draft} {ws vs : List Str} {ls rest : List (List Str)} {as : List Artifact} {s t f : Str} {n : ℕ}

/-! ### Lines and words -/

/-- A text that holds neither a space nor a line feed. -/
def Solid (s : Str) : Prop := 32 ∉ s ∧ 10 ∉ s

def trimLast : List Str → List Str
  | [] => []
  | [w] => [dropReturn w]
  | w :: v :: ws => w :: trimLast (v :: ws)

theorem dropReturn_nil : dropReturn [] = [] := rfl

theorem dropReturn_append (h : t ≠ []) : dropReturn (s ++ t) = s ++ dropReturn t := by
  unfold dropReturn
  rw [List.getLast?_append_of_ne_nil _ h]
  split
  · rw [List.dropLast_append_of_ne_nil h]
  · rfl

theorem dropReturn_space : dropReturn (s ++ 32 :: t) = s ++ 32 :: dropReturn t := by
  rw [dropReturn_append (List.cons_ne_nil 32 t)]
  cases t with
  | nil => rfl
  | cons b t =>
    rw [show 32 :: b :: t = [32] ++ (b :: t) from rfl,dropReturn_append (List.cons_ne_nil b t)]
    rfl

theorem spaced_cons {w v : Str} : spaced (w :: v :: ws) = w ++ 32 :: spaced (v :: ws) := by
  simp [spaced,List.intercalate]

theorem dropReturn_spaced (ws : List Str) : dropReturn (spaced ws) = spaced (trimLast ws) := by
  induction ws with
  | nil => rfl
  | cons w ws ih =>
    cases ws with
    | nil => simp [spaced,List.intercalate,trimLast]
    | cons v ws =>
      have hne : ∃ x xs, trimLast (v :: ws) = x :: xs := by
        cases ws with
        | nil => exact ⟨_,_,rfl⟩
        | cons x xs => exact ⟨_,_,rfl⟩
      obtain ⟨x,xs,hx⟩ := hne
      rw [spaced_cons,dropReturn_space,ih,trimLast,hx,spaced_cons]

theorem dropReturn_subset {b : ℕ} (h : b ∈ dropReturn s) : b ∈ s := by
  unfold dropReturn at h
  split at h
  · exact (List.dropLast_sublist s).subset h
  · exact h

theorem Solid.dropReturn (h : Solid s) : Solid (dropReturn s) :=
  ⟨fun hb => h.1 (dropReturn_subset hb),fun hb => h.2 (dropReturn_subset hb)⟩

theorem trimLast_solid (h : ∀ w ∈ ws, Solid w) : ∀ w ∈ trimLast ws, Solid w := by
  induction ws with
  | nil => exact h
  | cons w ws ih =>
    obtain ⟨hw,hws⟩ := List.forall_mem_cons.mp h
    cases ws with
    | nil => exact List.forall_mem_singleton.mpr hw.dropReturn
    | cons v ws => exact List.forall_mem_cons.mpr ⟨hw,ih hws⟩

theorem words_spaced (h : ∀ w ∈ ws, Solid w) : words (spaced ws) = ws.filter fun w => w ≠ [] := by
  cases ws with
  | nil => rfl
  | cons w ws =>
    unfold words spaced
    rw [List.splitOn_intercalate 32 (fun v hv => (h v hv).1) nofun]

theorem line_free (h : ∀ w ∈ ws, Solid w) : 10 ∉ spaced ws := by
  induction ws with
  | nil => simp [spaced,List.intercalate]
  | cons w ws ih =>
    obtain ⟨hw,hws⟩ := List.forall_mem_cons.mp h
    cases ws with
    | nil => simpa [spaced,List.intercalate] using hw.2
    | cons v ws =>
      rw [spaced_cons,List.mem_append,List.mem_cons]
      rintro (hmem | hmem | hmem)
      · exact hw.2 hmem
      · cases hmem
      · exact ih hws hmem

theorem lines_text (h : ∀ ws ∈ ls, ∀ w ∈ ws, Solid w) : lines (ls.map line).flatten = ls.map (fun ws => dropReturn (spaced ws)) ++ [[]] := by
  induction ls with
  | nil => rfl
  | cons ws ls ih =>
    obtain ⟨hws,hls⟩ := List.forall_mem_cons.mp h
    have hline : (((ws :: ls).map line).flatten) = spaced ws ++ 10 :: (ls.map line).flatten := by
      rw [List.map_cons,List.flatten_cons,line,List.append_assoc]
      rfl
    unfold lines at ih ⊢
    rw [hline,List.splitOn_append_cons_self_of_not_mem (line_free hws),List.map_cons,ih hls]
    rfl

def kept (ws : List Str) : List Str := (trimLast ws).filter fun w => w ≠ []

theorem readEntries_blank : readEntries d (ls ++ [[]]) = readEntries d ls := by
  induction ls generalizing d with
  | nil => rfl
  | cons ws ls ih =>
    rw [List.cons_append,readEntries,readEntries]
    split
    · exact ih
    · cases d.take ws with
      | none => rfl
      | some e => exact ih

/-- The text of a lock whose words hold no space and no line feed is read as the lines it was made of. -/
theorem parse_text (h : ∀ ws ∈ ls, ∀ w ∈ ws, Solid w) : parse ((([kwLock,[49]] :: ls).map line).flatten) = .ok k ↔
    (readEntries {} (ls.map kept)).map Draft.finished = some k := by
  have hhead : ∀ w ∈ [kwLock,[49]], Solid w := by
    unfold Solid
    decide
  have hall : ∀ ws ∈ [kwLock,[49]] :: ls, ∀ w ∈ ws, Solid w := List.forall_mem_cons.mpr ⟨hhead,h⟩
  have hwords (ws : List Str) (hws : ∀ w ∈ ws, Solid w) : words (dropReturn (spaced ws)) = kept ws := by
    rw [dropReturn_spaced,words_spaced (trimLast_solid hws)]
    rfl
  have hrest : (ls.map (fun ws => dropReturn (spaced ws)) ++ [[]]).map words = ls.map kept ++ [[]] := by
    rw [List.map_append,List.map_map]
    congr 1
    exact List.map_congr_left fun ws hmem => hwords ws (h ws hmem)
  have hfirst : words (dropReturn (spaced [kwLock,[49]])) = [kwLock,[49]] := hwords _ hhead
  rw [parse,lines_text hall,List.map_cons,List.cons_append,parseLines,hfirst,if_neg (by rintro ⟨⟩)]
  rw [if_pos rfl,parseLines_ok,hrest,readEntries_blank]

/-! ### The same lock -/

/-- A text that can be a word of a line. -/
def Word (s : Str) : Prop := s ≠ [] ∧ Solid s

/-- Each field that is written is a word, and those that end a line do not end in a carriage return. -/
structure Carried (l : Lockfile) : Prop where
  words : ∀ ws ∈ entries l, ∀ w ∈ ws, Word w
  ends : ∀ ws ∈ entries l, ∀ w ∈ ws.getLast?, w.getLast? ≠ some 13
  root : l.rootName = [] → l.rootArtifacts = []

/-- The same entries in some order. -/
def Alike {A : Type} (R : A → A → Prop) (as bs : List A) : Prop := ∃ cs, as.Perm cs ∧ List.Forall₂ R cs bs

structure SameMember (m m' : LockMember) : Prop where
  name : m.name = m'.name
  artifacts : m.artifacts.Perm m'.artifacts

structure SamePackage (p p' : LockPackage) : Prop where
  name : p.name = p'.name
  version : p.version = p'.version
  url : p.url = p'.url
  commit : p.commit = p'.commit
  content : p.content = p'.content
  requirements : p.requirements.Perm p'.requirements
  artifacts : p.artifacts.Perm p'.artifacts

structure Reordered (k l : Lockfile) : Prop where
  rootName : k.rootName = l.rootName
  rootArtifacts : k.rootArtifacts.Perm l.rootArtifacts
  members : Alike SameMember k.members l.members
  packages : Alike SamePackage k.packages l.packages

/-- A lock comes back from its text, and gives that text again. -/
def RoundTrips (l : Lockfile) : Prop := ∃ k, parse (render l) = .ok k ∧ Reordered k l ∧ render k = render l

/-! ### Orders -/

theorem Alike.flatMap {A B : Type} {R : A → A → Prop} {as bs : List A} {f : A → List B} (h : Alike R as bs)
    (hf : ∀ a b, R a b → (f a).Perm (f b)) : (as.flatMap f).Perm (bs.flatMap f) := by
  obtain ⟨cs,hp,hr⟩ := h
  refine (hp.flatMap_right f).trans ?_
  induction hr generalizing as with
  | nil => exact .refl _
  | cons hab _ ih => exact (hf _ _ hab).append (ih (List.Perm.refl _))

theorem Reordered.flatMap {B : Type} (h : Reordered k l) (g : List Str → List B) :
    ((entries k).flatMap g).Perm ((entries l).flatMap g) := by
  have hartifacts {as bs : List Artifact} (hp : as.Perm bs) : ((as.map artifactWords).flatMap g).Perm ((bs.map artifactWords).flatMap g) :=
    (hp.map artifactWords).flatMap_right g
  have hmember (m m' : LockMember) (hm : SameMember m m') : ((memberWords m).flatMap g).Perm ((memberWords m').flatMap g) := by
    rw [memberWords,memberWords,List.flatMap_cons,List.flatMap_cons,hm.name]
    exact (hartifacts hm.artifacts).append_left _
  have hpackage (p p' : LockPackage) (hp : SamePackage p p') : ((packageWords p).flatMap g).Perm ((packageWords p').flatMap g) := by
    rw [packageWords,packageWords,hp.name,hp.version,hp.url,hp.commit,hp.content]
    simp only [List.cons_append,List.flatMap_cons,List.flatMap_append]
    refine List.Perm.append_left _ (List.Perm.append_left _ (List.Perm.append_left _ ?_))
    exact ((hp.requirements.map requireWords).flatMap_right g).append (hartifacts hp.artifacts)
  rw [entries,entries,h.rootName]
  simp only [List.flatMap_append,List.flatMap_assoc]
  refine (List.Perm.append ?_ (h.members.flatMap hmember)).append (h.packages.flatMap hpackage)
  split
  · exact .refl _
  · rw [List.flatMap_cons,List.flatMap_cons]
    exact (hartifacts h.rootArtifacts).append_left _

theorem forall_flatMap {B : Type} {g : List Str → List B} {P : B → Prop} {xs ys : List (List Str)}
    (h : (xs.flatMap g).Perm (ys.flatMap g)) : (∀ ws ∈ xs, ∀ b ∈ g ws, P b) ↔ ∀ ws ∈ ys, ∀ b ∈ g ws, P b := by
  have hall (zs : List (List Str)) : (∀ ws ∈ zs, ∀ b ∈ g ws, P b) ↔ ∀ b ∈ zs.flatMap g, P b := by
    constructor
    · intro hz b hb
      obtain ⟨ws,hws,hb⟩ := List.mem_flatMap.mp hb
      exact hz ws hws b hb
    · exact fun hz ws hws b hb => hz b (List.mem_flatMap.mpr ⟨ws,hws,hb⟩)
  rw [hall,hall]
  exact forall_congr' fun b => by rw [h.mem_iff]

/-- A property of all words holds of both or of neither, and so does one of the words that end a line. -/
theorem Reordered.words (h : Reordered k l) {P : Str → Prop} : (∀ ws ∈ entries k, ∀ w ∈ ws, P w) ↔ ∀ ws ∈ entries l, ∀ w ∈ ws, P w :=
  forall_flatMap (h.flatMap id)

theorem Reordered.lasts (h : Reordered k l) {P : Str → Prop} : (∀ ws ∈ entries k, ∀ w ∈ ws.getLast?, P w) ↔
    ∀ ws ∈ entries l, ∀ w ∈ ws.getLast?, P w := by
  have hlast := forall_flatMap (P := P) (h.flatMap fun ws => ws.getLast?.toList)
  constructor
  · exact fun hk ws hws w hw =>
      hlast.mp (fun vs hvs v hv => hk vs hvs v (Option.mem_toList.mp hv)) ws hws w (Option.mem_toList.mpr hw)
  · exact fun hl ws hws w hw =>
      hlast.mpr (fun vs hvs v hv => hl vs hvs v (Option.mem_toList.mp hv)) ws hws w (Option.mem_toList.mpr hw)

theorem appendSorted_perm {as bs : List Str} (h : as.Perm bs) : appendSorted as = appendSorted bs := by
  unfold appendSorted
  congr 1
  refine List.Perm.eq_of_pairwise' (List.pairwise_insertionSort ..) (List.pairwise_insertionSort ..) ?_
  exact (List.perm_insertionSort ..).trans (h.trans (List.perm_insertionSort ..).symm)

theorem Alike.map {A B : Type} {R : A → A → Prop} {as bs : List A} {f : A → B} (h : Alike R as bs) (hf : ∀ a b, R a b → f a = f b) :
    (as.map f).Perm (bs.map f) := by
  obtain ⟨cs,hp,hr⟩ := h
  refine (hp.map f).trans (List.Perm.of_eq ?_)
  clear hp
  induction hr with
  | nil => rfl
  | cons hab _ ih => rw [List.map_cons,List.map_cons,ih,hf _ _ hab]

theorem Reordered.render (h : Reordered k l) : render k = render l := by
  have hmember (m m' : LockMember) (hm : SameMember m m') : memberBlock m = memberBlock m' := by
    rw [memberBlock,memberBlock,hm.name,artifactLines,artifactLines,appendSorted_perm (hm.artifacts.map _)]
  have hpackage (p p' : LockPackage) (hp : SamePackage p p') : packageBlock p = packageBlock p' := by
    rw [packageBlock,packageBlock,hp.name,hp.version,hp.url,hp.commit,hp.content,artifactLines,artifactLines,
      appendSorted_perm (hp.artifacts.map _),appendSorted_perm (hp.requirements.map _)]
  rw [Packages.render,Packages.render,h.rootName,artifactLines,artifactLines,appendSorted_perm (h.rootArtifacts.map _),
    appendSorted_perm (h.members.map hmember),appendSorted_perm (h.packages.map hpackage)]

theorem sortedBy_perm {A : Type} {text : A → Str} {as : List A} : (sortedBy text as).Perm as := List.perm_insertionSort ..

theorem arranged_reordered (l : Lockfile) : Reordered (arranged l) l where
  rootName := rfl
  rootArtifacts := sortedBy_perm
  members := ⟨l.members.map arrangedMember,sortedBy_perm.map _,List.forall₂_map_left_iff.mpr
    (List.forall₂_same.mpr fun _ _ => ⟨rfl,sortedBy_perm⟩)⟩
  packages := ⟨l.packages.map arrangedPackage,sortedBy_perm.map _,List.forall₂_map_left_iff.mpr
    (List.forall₂_same.mpr fun _ _ => ⟨rfl,rfl,rfl,rfl,rfl,sortedBy_perm,sortedBy_perm⟩)⟩

/-! ### Lines that are read -/

inductive Takes (d : Draft) : List Str → Draft → Prop
  | root (name : Str) : Takes d [kwRoot,name] { d.close with rootName := name, inRoot := true }
  | member (name : Str) : Takes d [kwMember,name] { d.close with inRoot := false, currentMember := some ⟨name,[]⟩ }
  | package (name version : Str) : Takes d [kwPackage,name,version]
      { d.close with inRoot := false, current := some ⟨name,version,[],[],[],[],[]⟩ }
  | source (url commit : Str) {p : LockPackage} : d.current = some p →
      Takes d [kwSource,url,commit] { d with current := some { p with url := url, commit := commit } }
  | content (content : Str) {p : LockPackage} : d.current = some p →
      Takes d [kwContent,content] { d with current := some { p with content := content } }
  | require (r : Str × Str) {p : LockPackage} : d.current = some p →
      Takes d (requireWords r) { d with current := some { p with requirements := p.requirements ++ [r] } }
  | artifact (a : Artifact) {p : LockPackage} : d.current = some p →
      Takes d (artifactWords a) { d with current := some { p with artifacts := p.artifacts ++ [a] } }
  | memberArtifact (a : Artifact) {m : LockMember} : d.currentMember = some m →
      Takes d (artifactWords a) { d with currentMember := some { m with artifacts := m.artifacts ++ [a] } }
  | rootArtifact (a : Artifact) : Takes d (artifactWords a) { d with rootArtifacts := d.rootArtifacts ++ [a] }

theorem takeArtifact_takes {vs : List Str} (h : d.takeArtifact (kwArtifact :: vs) = some e) : Takes d (kwArtifact :: vs) e := by
  unfold Draft.takeArtifact at h
  split at h
  · rename_i kw library platform url digest hvs
    obtain ⟨-,rfl⟩ := List.cons.inj hvs
    split at h
    · rename_i p hp
      cases h
      exact .artifact ⟨library,platform,url,digest⟩ hp
    · split at h
      · rename_i m hm
        cases h
        exact .memberArtifact ⟨library,platform,url,digest⟩ hm
      · split at h
        · cases h
          exact .rootArtifact ⟨library,platform,url,digest⟩
        · cases h
  · cases h

theorem take_takes (h : d.take ws = some e) : Takes d ws e := by
  cases ws with
  | nil => cases h
  | cons kw vs =>
    unfold Draft.take at h
    simp only [List.head?_cons,Option.some.injEq] at h
    split at h
    · rename_i hk
      subst hk
      rcases vs with _ | ⟨name,_ | ⟨_,_⟩⟩ <;> cases h
      exact .root name
    · split at h
      · rename_i hk
        subst hk
        rcases vs with _ | ⟨name,_ | ⟨_,_⟩⟩ <;> cases h
        exact .member name
      · split at h
        · rename_i hk
          subst hk
          rcases vs with _ | ⟨name,_ | ⟨version,_ | ⟨_,_⟩⟩⟩ <;> cases h
          exact .package name version
        · split at h
          · rename_i hk
            subst hk
            rcases vs with _ | ⟨url,_ | ⟨commit,_ | ⟨_,_⟩⟩⟩ <;> try cases h
            obtain ⟨p,hp,rfl⟩ := Option.map_eq_some_iff.mp h
            exact .source url commit hp
          · split at h
            · rename_i hk
              subst hk
              rcases vs with _ | ⟨content,_ | ⟨_,_⟩⟩ <;> try cases h
              obtain ⟨p,hp,rfl⟩ := Option.map_eq_some_iff.mp h
              exact .content content hp
            · split at h
              · rename_i hk
                subst hk
                rcases vs with _ | ⟨name,_ | ⟨version,_ | ⟨_,_⟩⟩⟩ <;> try cases h
                obtain ⟨p,hp,rfl⟩ := Option.map_eq_some_iff.mp h
                exact .require (name,version) hp
              · split at h
                · rename_i hk
                  subst hk
                  exact takeArtifact_takes h
                · cases h

def lineLengths : List (Str × ℕ) :=
  [(kwRoot,2),(kwMember,2),(kwPackage,3),(kwSource,3),(kwContent,2),(kwRequire,3),(kwArtifact,5)]

theorem take_length (h : d.take ws = some e) : ∃ kw vs, ws = kw :: vs ∧ (kw,ws.length) ∈ lineLengths := by
  cases take_takes h <;> exact ⟨_,_,rfl,by simp [lineLengths,artifactWords,requireWords]⟩

theorem lineLengths_unique : ∀ x ∈ lineLengths, ∀ y ∈ lineLengths, x.1 = y.1 → x.2 = y.2 := by
  simp [lineLengths,kwRoot,kwMember,kwPackage,kwSource,kwContent,kwRequire,kwArtifact]

theorem entries_shape (l : Lockfile) : ∀ ws ∈ entries l, ∃ kw vs, ws = kw :: vs ∧ vs ≠ [] ∧ (kw,ws.length) ∈ lineLengths := by
  have hartifact (as : List Artifact) : ∀ ws ∈ as.map artifactWords, ∃ kw vs, ws = kw :: vs ∧ vs ≠ [] ∧ (kw,ws.length) ∈ lineLengths := by
    intro ws hws
    obtain ⟨a,-,rfl⟩ := List.mem_map.mp hws
    exact ⟨_,_,rfl,by rintro ⟨⟩,by simp [lineLengths,artifactWords]⟩
  intro ws hws
  rcases List.mem_append.mp hws with hws | hws
  · rcases List.mem_append.mp hws with hws | hws
    · split at hws
      · cases hws
      · rcases List.mem_cons.mp hws with rfl | hws
        · exact ⟨_,_,rfl,by rintro ⟨⟩,by simp [lineLengths]⟩
        · exact hartifact _ ws hws
    · obtain ⟨m,-,hws⟩ := List.mem_flatMap.mp hws
      rcases List.mem_cons.mp hws with rfl | hws
      · exact ⟨_,_,rfl,by rintro ⟨⟩,by simp [lineLengths]⟩
      · exact hartifact _ ws hws
  · obtain ⟨p,-,hws⟩ := List.mem_flatMap.mp hws
    simp only [packageWords,List.cons_append,List.mem_cons,List.mem_append] at hws
    rcases hws with rfl | rfl | rfl | hws | hws
    · exact ⟨_,_,rfl,by rintro ⟨⟩,by simp [lineLengths]⟩
    · exact ⟨_,_,rfl,by rintro ⟨⟩,by simp [lineLengths]⟩
    · exact ⟨_,_,rfl,by rintro ⟨⟩,by simp [lineLengths]⟩
    · obtain ⟨r,-,rfl⟩ := List.mem_map.mp hws
      exact ⟨_,_,rfl,by rintro ⟨⟩,by simp [lineLengths,requireWords]⟩
    · exact hartifact _ ws hws

theorem readEntries_takes (h : readEntries d ls = some e) : ∀ ws ∈ ls, ws ≠ [] → ∃ d' e' : Draft, d'.take ws = some e' := by
  induction ls generalizing d with
  | nil => nofun
  | cons vs ls ih =>
    rw [readEntries] at h
    split at h
    · rename_i hnil
      intro ws hws hne
      rcases List.mem_cons.mp hws with rfl | hws
      · exact absurd hnil hne
      · exact ih h ws hws hne
    · obtain ⟨e',he',h⟩ := Option.bind_eq_some_iff.mp h
      intro ws hws hne
      rcases List.mem_cons.mp hws with rfl | hws
      · exact ⟨d,e',he'⟩
      · exact ih h ws hws hne

theorem trimLast_length (ws : List Str) : (trimLast ws).length = ws.length := by
  induction ws with
  | nil => rfl
  | cons w ws ih =>
    cases ws with
    | nil => rfl
    | cons v ws => rw [trimLast,List.length_cons,ih]; rfl

theorem kept_full (h : readEntries d (ls.map kept) = some e)
    (hshape : ∀ ws ∈ ls, ∃ kw vs, ws = kw :: vs ∧ vs ≠ [] ∧ (kw,ws.length) ∈ lineLengths) :
    ∀ ws ∈ ls, kept ws = trimLast ws ∧ ∀ w ∈ trimLast ws, w ≠ [] := by
  intro ws hws
  obtain ⟨kw,vs,rfl,hvs,hlen⟩ := hshape ws hws
  obtain ⟨v,vs,rfl⟩ := List.exists_cons_of_ne_nil hvs
  have hkw : kw ≠ [] := by
    have hall : ∀ x ∈ lineLengths, x.1 ≠ [] := by
      simp [lineLengths,kwRoot,kwMember,kwPackage,kwSource,kwContent,kwRequire,kwArtifact]
    exact hall _ hlen
  have hkept : kept (kw :: v :: vs) = kw :: (trimLast (v :: vs)).filter fun w => w ≠ [] := by
    rw [kept,trimLast,List.filter_cons_of_pos (by simpa using hkw)]
  obtain ⟨d',e',htake⟩ := readEntries_takes h _ (List.mem_map.mpr ⟨_,hws,rfl⟩) (by rw [hkept]; nofun)
  obtain ⟨kw',vs',heq,hlen'⟩ := take_length htake
  have hsame : kw = kw' := by
    rw [hkept] at heq
    exact (List.cons.inj heq).1
  have hcount : (kept (kw :: v :: vs)).length = (trimLast (kw :: v :: vs)).length := by
    rw [trimLast_length]
    exact lineLengths_unique _ hlen' _ hlen hsame.symm
  have hfull := List.length_filter_eq_length_iff.mp hcount
  exact ⟨List.filter_eq_self.mpr hfull,fun w hw => by simpa using hfull w hw⟩

/-! ### A lock whose lines lost carriage returns -/

def trimArtifact (a : Artifact) : Artifact := { a with digest := dropReturn a.digest }

def trimMember (m : LockMember) : LockMember := ⟨dropReturn m.name,m.artifacts.map trimArtifact⟩

def trimPackage (p : LockPackage) : LockPackage :=
  ⟨p.name,dropReturn p.version,p.url,dropReturn p.commit,dropReturn p.content,p.requirements.map fun r => (r.1,dropReturn r.2),
    p.artifacts.map trimArtifact⟩

def trimmed (l : Lockfile) : Lockfile :=
  ⟨dropReturn l.rootName,l.rootArtifacts.map trimArtifact,l.members.map trimMember,l.packages.map trimPackage⟩

theorem entries_trimmed (h : l.rootName ≠ [] → dropReturn l.rootName ≠ []) : entries (trimmed l) = (entries l).map trimLast := by
  have hroot : (if (trimmed l).rootName = [] then [] else
      [kwRoot,(trimmed l).rootName] :: (trimmed l).rootArtifacts.map artifactWords) =
      (if l.rootName = [] then [] else [kwRoot,l.rootName] :: l.rootArtifacts.map artifactWords).map trimLast := by
    by_cases hn : l.rootName = []
    · rw [if_pos hn,if_pos (show (trimmed l).rootName = [] by rw [trimmed,hn]; rfl)]
      rfl
    · rw [if_neg hn,if_neg (show (trimmed l).rootName ≠ [] from h hn),List.map_cons,List.map_map,trimmed,List.map_map]
      rfl
  have hmembers : (trimmed l).members.flatMap memberWords = (l.members.flatMap memberWords).map trimLast := by
    rw [trimmed,List.map_flatMap,List.flatMap_map]
    refine List.flatMap_congr fun m _ => ?_
    rw [memberWords,memberWords,List.map_cons,List.map_map,trimMember,List.map_map]
    rfl
  have hpackages : (trimmed l).packages.flatMap packageWords = (l.packages.flatMap packageWords).map trimLast := by
    rw [trimmed,List.map_flatMap,List.flatMap_map]
    refine List.flatMap_congr fun p _ => ?_
    simp only [packageWords,trimPackage,List.map_cons,List.map_append,List.map_map,List.cons_append]
    rfl
  rw [entries,entries,hroot,hmembers,hpackages,List.map_append,List.map_append]

theorem entries_rooted : entries (rooted l) = entries l := by
  unfold rooted
  split
  · rename_i hn
    rw [entries,entries,if_pos hn,if_pos hn]
  · rfl

theorem dropReturn_length : (dropReturn s).length ≤ s.length := by
  unfold dropReturn
  split
  · exact (List.dropLast_sublist s).length_le
  · exact Nat.le_refl _

theorem dropReturn_eq (h : (dropReturn s).length = s.length) : s.getLast? ≠ some 13 := by
  intro hs
  rw [dropReturn,if_pos hs,List.length_dropLast] at h
  cases s with
  | nil => cases hs
  | cons b s =>
    rw [List.length_cons] at h
    omega

theorem trimLast_getLast (ws : List Str) : (trimLast ws).getLast? = ws.getLast?.map dropReturn := by
  induction ws with
  | nil => rfl
  | cons w ws ih =>
    cases ws with
    | nil => rfl
    | cons v ws =>
      rw [trimLast,List.getLast?_cons_cons,← ih]
      cases ws <;> rfl

theorem trimLast_self (h : ∀ w ∈ ws.getLast?, w.getLast? ≠ some 13) : trimLast ws = ws := by
  induction ws with
  | nil => rfl
  | cons w ws ih =>
    cases ws with
    | nil => rw [trimLast,dropReturn,if_neg (h w rfl)]
    | cons v ws =>
      rw [trimLast,ih]
      exact fun x hx => h x (by rwa [List.getLast?_cons_cons])

/-- Lines whose last words are those of others up to order, with carriage returns dropped, had none to drop. -/
theorem lasts_kept (h : (((ls.map trimLast).flatMap fun ws => ws.getLast?.toList)).Perm (ls.flatMap fun ws => ws.getLast?.toList)) :
    ∀ ws ∈ ls, ∀ w ∈ ws.getLast?, w.getLast? ≠ some 13 := by
  have hmap : ((ls.map trimLast).flatMap fun ws => ws.getLast?.toList) = (ls.flatMap fun ws => ws.getLast?.toList).map dropReturn := by
    rw [List.flatMap_map,List.map_flatMap]
    refine List.flatMap_congr fun ws _ => ?_
    rw [trimLast_getLast]
    cases ws.getLast? <;> rfl
  rw [hmap] at h
  have hle (ys : List Str) : ((ys.map dropReturn).flatMap id).length ≤ (ys.flatMap id).length := by
    induction ys with
    | nil => exact Nat.le_refl _
    | cons y ys ih =>
      rw [List.map_cons,List.flatMap_cons,List.flatMap_cons,List.length_append,List.length_append]
      exact Nat.add_le_add dropReturn_length ih
  have hlength := (h.flatMap_right id).length_eq
  have hall : ∀ w ∈ ls.flatMap fun ws => ws.getLast?.toList, (dropReturn w).length = w.length := by
    generalize ls.flatMap (fun ws => ws.getLast?.toList) = xs at hlength
    clear h hmap
    induction xs with
    | nil => nofun
    | cons x xs ih =>
      have hx := dropReturn_length (s := x)
      have hxs := hle xs
      rw [List.map_cons,List.flatMap_cons,List.flatMap_cons,List.length_append,List.length_append] at hlength
      dsimp only [id] at hlength
      exact List.forall_mem_cons.mpr ⟨by omega,ih (by omega)⟩
  exact fun ws hws w hw => dropReturn_eq (hall w (List.mem_flatMap.mpr ⟨ws,hws,Option.mem_toList.mpr hw⟩))

/-! ### Both ways -/

def SolidArtifact (a : Artifact) : Prop := ∀ w ∈ artifactWords a, Solid w

def SolidMember (m : LockMember) : Prop := ∀ ws ∈ memberWords m, ∀ w ∈ ws, Solid w

def SolidPackage (p : LockPackage) : Prop := ∀ ws ∈ packageWords p, ∀ w ∈ ws, Solid w

structure SolidDraft (d : Draft) : Prop where
  rootName : Solid d.rootName
  rootArtifacts : ∀ a ∈ d.rootArtifacts, SolidArtifact a
  members : ∀ m ∈ d.members ++ d.currentMember.toList, SolidMember m
  packages : ∀ p ∈ d.packages ++ d.current.toList, SolidPackage p

theorem solid_nil : Solid [] := ⟨nofun,nofun⟩

theorem solidMember_iff {m : LockMember} : SolidMember m ↔ (∀ w ∈ [kwMember,m.name], Solid w) ∧ ∀ a ∈ m.artifacts, SolidArtifact a := by
  rw [SolidMember,memberWords,List.forall_mem_cons,List.forall_mem_map]
  rfl

theorem solidPackage_iff {p : LockPackage} : SolidPackage p ↔ (∀ w ∈ [kwPackage,p.name,p.version], Solid w) ∧
    (∀ w ∈ [kwSource,p.url,p.commit], Solid w) ∧ (∀ w ∈ [kwContent,p.content], Solid w) ∧
    (∀ r ∈ p.requirements, ∀ w ∈ requireWords r, Solid w) ∧ ∀ a ∈ p.artifacts, SolidArtifact a := by
  rw [SolidPackage,packageWords]
  simp only [List.cons_append]
  refine List.forall_mem_cons.trans (and_congr Iff.rfl (List.forall_mem_cons.trans (and_congr Iff.rfl
    (List.forall_mem_cons.trans (and_congr Iff.rfl (List.forall_mem_append.trans ?_))))))
  exact and_congr List.forall_mem_map List.forall_mem_map

theorem SolidDraft.change (hd : SolidDraft d) {p : LockPackage} (hp : SolidPackage p) : SolidDraft { d with current := some p } where
  rootName := hd.rootName
  rootArtifacts := hd.rootArtifacts
  members := hd.members
  packages := List.forall_mem_append.mpr ⟨(List.forall_mem_append.mp hd.packages).1,List.forall_mem_singleton.mpr hp⟩

theorem SolidDraft.close (hd : SolidDraft d) : SolidDraft d.close where
  rootName := hd.rootName
  rootArtifacts := hd.rootArtifacts
  members := List.forall_mem_append.mpr ⟨hd.members,nofun⟩
  packages := List.forall_mem_append.mpr ⟨hd.packages,nofun⟩

theorem SolidDraft.current (hd : SolidDraft d) {p : LockPackage} (hp : d.current = some p) : SolidPackage p :=
  (List.forall_mem_append.mp hd.packages).2 p (by rw [hp]; exact List.mem_singleton_self _)

theorem SolidDraft.take (hd : SolidDraft d) (h : d.take ws = some e) (hws : ∀ w ∈ ws, Solid w) : SolidDraft e := by
  have hsource : ∀ w ∈ [kwSource,[],[]], Solid w := by
    simp [Solid,kwSource]
  have hcontent : ∀ w ∈ [kwContent,[]], Solid w := by
    simp [Solid,kwContent]
  cases take_takes h with
  | root name => exact { hd.close with rootName := hws name (by simp) }
  | member name =>
    refine { hd.close with members := List.forall_mem_append.mpr ⟨hd.members,List.forall_mem_singleton.mpr ?_⟩ }
    exact solidMember_iff.mpr ⟨hws,nofun⟩
  | package name version =>
    refine { hd.close with packages := List.forall_mem_append.mpr ⟨hd.packages,List.forall_mem_singleton.mpr ?_⟩ }
    exact solidPackage_iff.mpr ⟨hws,hsource,hcontent,nofun,nofun⟩
  | source url commit hp =>
    obtain ⟨h1,-,h3,h4,h5⟩ := solidPackage_iff.mp (hd.current hp)
    exact hd.change (solidPackage_iff.mpr ⟨h1,hws,h3,h4,h5⟩)
  | content content hp =>
    obtain ⟨h1,h2,-,h4,h5⟩ := solidPackage_iff.mp (hd.current hp)
    exact hd.change (solidPackage_iff.mpr ⟨h1,h2,hws,h4,h5⟩)
  | require r hp =>
    obtain ⟨h1,h2,h3,h4,h5⟩ := solidPackage_iff.mp (hd.current hp)
    exact hd.change (solidPackage_iff.mpr ⟨h1,h2,h3,List.forall_mem_append.mpr ⟨h4,List.forall_mem_singleton.mpr hws⟩,h5⟩)
  | artifact a hp =>
    obtain ⟨h1,h2,h3,h4,h5⟩ := solidPackage_iff.mp (hd.current hp)
    exact hd.change (solidPackage_iff.mpr ⟨h1,h2,h3,h4,List.forall_mem_append.mpr ⟨h5,List.forall_mem_singleton.mpr hws⟩⟩)
  | memberArtifact a hm =>
    obtain ⟨hold,hcurrent⟩ := List.forall_mem_append.mp hd.members
    obtain ⟨h1,h2⟩ := solidMember_iff.mp (hcurrent _ (by rw [hm]; exact List.mem_singleton_self _))
    refine { hd with members := List.forall_mem_append.mpr ⟨hold,List.forall_mem_singleton.mpr ?_⟩ }
    exact solidMember_iff.mpr ⟨h1,List.forall_mem_append.mpr ⟨h2,List.forall_mem_singleton.mpr hws⟩⟩
  | rootArtifact a =>
    exact { hd with rootArtifacts := List.forall_mem_append.mpr ⟨hd.rootArtifacts,List.forall_mem_singleton.mpr hws⟩ }

theorem SolidDraft.entries (hd : SolidDraft d) : ∀ ws ∈ entries d.finished, ∀ w ∈ ws, Solid w := by
  have hroot : ∀ w ∈ [kwRoot,d.rootName], Solid w := by
    refine List.forall_mem_cons.mpr ⟨?_,List.forall_mem_singleton.mpr hd.rootName⟩
    simp [Solid,kwRoot]
  intro ws hws
  rcases List.mem_append.mp hws with hws | hws
  · rcases List.mem_append.mp hws with hws | hws
    · split at hws
      · cases hws
      · rcases List.mem_cons.mp hws with rfl | hws
        · exact hroot
        · obtain ⟨a,ha,rfl⟩ := List.mem_map.mp hws
          exact hd.rootArtifacts a ha
    · obtain ⟨m,hm,hws⟩ := List.mem_flatMap.mp hws
      exact hd.members m hm ws hws
  · obtain ⟨p,hp,hws⟩ := List.mem_flatMap.mp hws
    exact hd.packages p hp ws hws

theorem splitOn_parts (x : ℕ) (s : Str) : ∀ w ∈ s.splitOn x, x ∉ w ∧ ∀ b ∈ w, b ∈ s := by
  induction s with
  | nil =>
    rw [List.splitOn_nil]
    exact List.forall_mem_singleton.mpr ⟨nofun,nofun⟩
  | cons b s ih =>
    have hmore (w : Str) (hw : w ∈ s.splitOn x) : x ∉ w ∧ ∀ c ∈ w, c ∈ b :: s :=
      ⟨(ih w hw).1,fun c hc => List.mem_cons_of_mem b ((ih w hw).2 c hc)⟩
    rw [List.splitOn_cons_eq_if_modifyHead]
    split
    · exact List.forall_mem_cons.mpr ⟨⟨nofun,nofun⟩,hmore⟩
    · rename_i hb
      cases hs : s.splitOn x with
      | nil => nofun
      | cons v vs =>
        rw [hs] at hmore
        obtain ⟨⟨hv,hsub⟩,hvs⟩ := List.forall_mem_cons.mp hmore
        refine List.forall_mem_cons.mpr ⟨⟨fun hx => ?_,List.forall_mem_cons.mpr ⟨List.mem_cons_self ..,hsub⟩⟩,hvs⟩
        rcases List.mem_cons.mp hx with rfl | hx
        · exact hb (beq_self_eq_true _)
        · exact hv hx

theorem words_solid {s : Str} (h : 10 ∉ s) : ∀ w ∈ words s, Solid w := by
  intro w hw
  obtain ⟨hspace,hsub⟩ := splitOn_parts 32 s w (List.mem_filter.mp hw).1
  exact ⟨hspace,fun hb => h (hsub 10 hb)⟩

theorem lines_free {text : Str} : ∀ s ∈ lines text, 10 ∉ s := by
  intro s hs
  obtain ⟨t,ht,rfl⟩ := List.mem_map.mp hs
  exact fun hb => (splitOn_parts 10 text t ht).1 (dropReturn_subset hb)

theorem parseLines_solid {ls : List Str} {draft : Option Draft} (hd : ∀ d ∈ draft, SolidDraft d) (hls : ∀ s ∈ ls, 10 ∉ s)
    (h : parseLines n draft ls = .ok k) : ∀ ws ∈ entries k, ∀ w ∈ ws, Solid w := by
  induction ls generalizing n draft with
  | nil =>
    cases draft with
    | none => cases h
    | some d =>
      cases h
      exact (hd d rfl).entries
  | cons s ls ih =>
    obtain ⟨hs,hls⟩ := List.forall_mem_cons.mp hls
    cases draft with
    | none =>
      rw [parseLines] at h
      split at h
      · exact ih hd hls h
      · split at h
        · refine ih (fun d hd => ?_) hls h
          cases hd
          exact ⟨solid_nil,by rintro _ ⟨⟩,by rintro _ ⟨⟩,by rintro _ ⟨⟩⟩
        · cases h
    | some d =>
      rw [parseLines] at h
      split at h
      · exact ih hd hls h
      · split at h
        · rename_i e he
          refine ih (fun d' hd' => ?_) hls h
          cases hd'
          exact (hd d rfl).take he (words_solid hs)
        · cases h

/-- A lock comes back from the text it is rendered as exactly when its fields are words of the format. -/
theorem lock_roundTrips (l : Lockfile) : RoundTrips l ↔ Carried l := by
  have harranged := arranged_reordered l
  constructor
  · rintro ⟨k,hparse,hre,-⟩
    have hsolid : ∀ ws ∈ entries (arranged l), ∀ w ∈ ws, Solid w :=
      harranged.words.mpr (hre.words.mp (parseLines_solid (fun _ (hd : _ ∈ (none : Option Draft)) => nomatch hd) lines_free hparse))
    rw [render_eq,parse_text hsolid] at hparse
    obtain ⟨d,hread,hfinished⟩ := Option.map_eq_some_iff.mp hparse
    have hfull := kept_full hread (entries_shape _)
    have hkept : (entries (arranged l)).map kept = (entries (arranged l)).map trimLast :=
      List.map_congr_left fun ws hws => (hfull ws hws).1
    have hroot : (arranged l).rootName ≠ [] → dropReturn (arranged l).rootName ≠ [] := by
      intro hne
      refine (hfull [kwRoot,(arranged l).rootName] ?_).2 _ (List.mem_cons_of_mem _ (List.mem_singleton_self _))
      refine List.mem_append_left _ (List.mem_append_left _ ?_)
      rw [if_neg hne]
      exact List.mem_cons_self ..
    rw [hkept,← entries_trimmed hroot,read_entries] at hparse
    obtain rfl := Option.some.inj hparse
    have hlasts := (hre.flatMap fun ws => ws.getLast?.toList).trans (harranged.flatMap fun ws => ws.getLast?.toList).symm
    rw [entries_rooted,entries_trimmed hroot] at hlasts
    have hends := lasts_kept hlasts
    refine ⟨harranged.words.mp fun ws hws w hw => ⟨?_,hsolid ws hws w hw⟩,harranged.lasts.mp hends,fun hn => ?_⟩
    · rw [← trimLast_self (hends ws hws)] at hw
      exact (hfull ws hws).2 w hw
    · have hnil := hre.rootArtifacts
      have htrimmed : (trimmed (arranged l)).rootName = [] := by
        change dropReturn l.rootName = []
        rw [hn]
        rfl
      rw [rooted,if_pos htrimmed] at hnil
      exact List.nil_perm.mp hnil
  · intro hl
    have hwords : ∀ ws ∈ entries (arranged l), ∀ w ∈ ws, Word w := harranged.words.mpr hl.words
    have hends := harranged.lasts.mpr hl.ends
    have hkept : (entries (arranged l)).map kept = entries (arranged l) := by
      conv_rhs => rw [← List.map_id (entries (arranged l))]
      refine List.map_congr_left fun ws hws => ?_
      rw [kept,trimLast_self (hends ws hws)]
      exact List.filter_eq_self.mpr fun w hw => decide_eq_true (hwords ws hws w hw).1
    have hrooted : rooted (arranged l) = arranged l := by
      unfold rooted
      split
      · rename_i hn
        have hnil : (arranged l).rootArtifacts = [] := by
          change sortedBy _ l.rootArtifacts = []
          rw [hl.root hn]
          rfl
        rw [← hnil]
      · rfl
    refine ⟨arranged l,?_,harranged,harranged.render⟩
    rw [render_eq,parse_text fun ws hws w hw => (hwords ws hws w hw).2,hkept,read_entries,hrooted]

/-! ### A repository whose location holds a space -/

/-- An application that requires `b` at `1.0` from a location with a space. -/
def apart : Checkout where
  root := package [120] [⟨[98],true,[49,46,48],true,[104,32,98]⟩]
  enclosing := []
  overrides := []

def lockApart : Lockfile where
  rootName := [120]
  packages := [⟨[98],[49,46,48],[104,32,98],[49,46,48],[98,49,46,48],[],[]⟩]

/-- The lock a build writes is refused by the next one. -/
theorem lock_refused : resolve elsewhere apart none false = .ok (some lockApart) ∧
    parse (render lockApart) = .error (.entry 4 (spaced [kwSource,[104,32,98],[49,46,48]])) ∧ ¬RoundTrips lockApart := by
  have hrefused : parse (render lockApart) = .error (.entry 4 (spaced [kwSource,[104,32,98],[49,46,48]])) := by decide +kernel
  refine ⟨by decide +kernel,hrefused,?_⟩
  rintro ⟨k,hk,-⟩
  rw [hrefused] at hk
  cases hk

end Ens.Packages
