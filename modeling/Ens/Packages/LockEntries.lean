import Ens.Packages.Resolution

/-! # The lock as its file reads

One line for each thing recorded, its words separated by one space. Every order the lock has a choice about is settled
by the bytes of the lines, or of the blocks of lines.
-/
set_option linter.all false
namespace Ens.Packages

/-! ### Words of the format -/

def kwLock : Str := [108,111,99,107]
def kwRoot : Str := [114,111,111,116]
def kwMember : Str := [109,101,109,98,101,114]
def kwPackage : Str := [112,97,99,107,97,103,101]
def kwSource : Str := [115,111,117,114,99,101]
def kwContent : Str := [99,111,110,116,101,110,116]
def kwRequire : Str := [114,101,113,117,105,114,101]
def kwArtifact : Str := [97,114,116,105,102,97,99,116]

/-! ### Rendering -/

def spaced (ws : List Str) : Str := [32].intercalate ws

def line (ws : List Str) : Str := spaced ws ++ [10]

def appendSorted (lines : List Str) : Str := (lines.insertionSort (· ≤ ·)).flatten

def artifactWords (a : Artifact) : List Str := [kwArtifact,a.library,a.platform,a.url,a.digest]

def requireWords (r : Str × Str) : List Str := [kwRequire,r.1,r.2]

def artifactLines (as : List Artifact) : List Str := as.map fun a => line (artifactWords a)

def memberBlock (m : LockMember) : Str := line [kwMember,m.name] ++ appendSorted (artifactLines m.artifacts)

def packageBlock (p : LockPackage) : Str :=
  line [kwPackage,p.name,p.version] ++ line [kwSource,p.url,p.commit] ++ line [kwContent,p.content] ++
    appendSorted (p.requirements.map fun r => line (requireWords r)) ++ appendSorted (artifactLines p.artifacts)

def render (l : Lockfile) : Str :=
  line [kwLock,[49]] ++ (if l.rootName = [] then [] else line [kwRoot,l.rootName] ++ appendSorted (artifactLines l.rootArtifacts)) ++
    appendSorted (l.members.map memberBlock) ++ appendSorted (l.packages.map packageBlock)

/-! ### Reading -/

structure Draft where
  rootName : Str := []
  inRoot : Bool := false
  rootArtifacts : List Artifact := []
  members : List LockMember := []
  packages : List LockPackage := []
  currentMember : Option LockMember := none
  current : Option LockPackage := none

def Draft.close (d : Draft) : Draft :=
  { d with
    packages := d.packages ++ d.current.toList
    current := none
    members := d.members ++ d.currentMember.toList
    currentMember := none }

def Draft.finished (d : Draft) : Lockfile := ⟨d.rootName,d.rootArtifacts,d.close.members,d.close.packages⟩

def Draft.takeRoot (d : Draft) : List Str → Option Draft
  | [_,name] => some { d.close with rootName := name, inRoot := true }
  | _ => none

def Draft.takeMember (d : Draft) : List Str → Option Draft
  | [_,name] => some { d.close with inRoot := false, currentMember := some ⟨name,[]⟩ }
  | _ => none

def Draft.takePackage (d : Draft) : List Str → Option Draft
  | [_,name,version] => some { d.close with inRoot := false, current := some ⟨name,version,[],[],[],[],[]⟩ }
  | _ => none

def Draft.takeSource (d : Draft) : List Str → Option Draft
  | [_,url,commit] => d.current.map fun p => { d with current := some { p with url := url, commit := commit } }
  | _ => none

def Draft.takeContent (d : Draft) : List Str → Option Draft
  | [_,content] => d.current.map fun p => { d with current := some { p with content := content } }
  | _ => none

def Draft.takeRequirement (d : Draft) : List Str → Option Draft
  | [_,name,version] => d.current.map fun p => { d with current := some { p with requirements := p.requirements ++ [(name,version)] } }
  | _ => none

def Draft.takeArtifact (d : Draft) : List Str → Option Draft
  | [_,library,platform,url,digest] =>
    match d.current with
    | some p => some { d with current := some { p with artifacts := p.artifacts ++ [⟨library,platform,url,digest⟩] } }
    | none =>
      match d.currentMember with
      | some m => some { d with currentMember := some { m with artifacts := m.artifacts ++ [⟨library,platform,url,digest⟩] } }
      | none =>
        if d.inRoot then some { d with rootArtifacts := d.rootArtifacts ++ [⟨library,platform,url,digest⟩] } else none
  | _ => none

def Draft.take (d : Draft) (parts : List Str) : Option Draft :=
  if parts.head? = some kwRoot then d.takeRoot parts
  else if parts.head? = some kwMember then d.takeMember parts
  else if parts.head? = some kwPackage then d.takePackage parts
  else if parts.head? = some kwSource then d.takeSource parts
  else if parts.head? = some kwContent then d.takeContent parts
  else if parts.head? = some kwRequire then d.takeRequirement parts
  else if parts.head? = some kwArtifact then d.takeArtifact parts
  else none

def dropReturn (s : Str) : Str := if s.getLast? = some 13 then s.dropLast else s

def lines (text : Str) : List Str := (text.splitOn 10).map dropReturn

def words (l : Str) : List Str := (l.splitOn 32).filter fun part => part ≠ []

/-- Why a file is no lock: its first line is not that of a lock, a line is no entry, or there is no line. -/
inductive Refusal
  | header
  | entry (number : ℕ) (line : Str)
  | nothing
  deriving DecidableEq, Repr

def parseLines (number : ℕ) (draft : Option Draft) : List Str → Except Refusal Lockfile
  | [] =>
    match draft with
    | none => .error .nothing
    | some d => .ok d.finished
  | l :: ls =>
    if words l = [] then parseLines (number + 1) draft ls
    else
      match draft with
      | none => if words l = [kwLock,[49]] then parseLines (number + 1) (some {}) ls else .error .header
      | some d =>
        match d.take (words l) with
        | some d => parseLines (number + 1) (some d) ls
        | none => .error (.entry number l)

def parse (text : Str) : Except Refusal Lockfile := parseLines 1 none (lines text)

end Ens.Packages

/-! ## The lines of a lock

What is rendered is a list of lines, each a list of words. Reading those lists of words gives the lock back whatever the
words are; whether the text gives the words back is another matter.
-/
namespace Ens.Packages
variable {l k : Lockfile} {d : Draft} {ws vs : List Str} {ls rest : List (List Str)} {as : List Artifact} {s t : Str} {n : ℕ}

/-! ### Entries -/

def memberWords (m : LockMember) : List (List Str) := [kwMember,m.name] :: m.artifacts.map artifactWords

def packageWords (p : LockPackage) : List (List Str) :=
  [kwPackage,p.name,p.version] :: [kwSource,p.url,p.commit] :: [kwContent,p.content] :: p.requirements.map requireWords ++
    p.artifacts.map artifactWords

def entries (l : Lockfile) : List (List Str) :=
  (if l.rootName = [] then [] else [kwRoot,l.rootName] :: l.rootArtifacts.map artifactWords) ++
    l.members.flatMap memberWords ++ l.packages.flatMap packageWords

def sortedBy {A : Type} (text : A → Str) (as : List A) : List A := as.insertionSort fun a b => text a ≤ text b

def arrangedMember (m : LockMember) : LockMember := { m with artifacts := sortedBy (fun a => line (artifactWords a)) m.artifacts }

def arrangedPackage (p : LockPackage) : LockPackage :=
  { p with
    requirements := sortedBy (fun r => line (requireWords r)) p.requirements
    artifacts := sortedBy (fun a => line (artifactWords a)) p.artifacts }

def arranged (l : Lockfile) : Lockfile where
  rootName := l.rootName
  rootArtifacts := sortedBy (fun a => line (artifactWords a)) l.rootArtifacts
  members := (sortedBy memberBlock l.members).map arrangedMember
  packages := (sortedBy packageBlock l.packages).map arrangedPackage

theorem appendSorted_map {A : Type} (text : A → Str) (as : List A) : appendSorted (as.map text) = (sortedBy text as).flatMap text := by
  rw [appendSorted,List.flatMap,sortedBy,List.map_insertionSort (fun a b => text a ≤ text b) (· ≤ ·) text as fun _ _ _ _ => Iff.rfl]

theorem memberBlock_eq (m : LockMember) : memberBlock m = ((memberWords (arrangedMember m)).map line).flatten := by
  rw [memberBlock,artifactLines,appendSorted_map,memberWords,List.map_cons,List.map_map,List.flatten_cons,List.flatMap]
  rfl

theorem packageBlock_eq (p : LockPackage) : packageBlock p = ((packageWords (arrangedPackage p)).map line).flatten := by
  rw [packageBlock,artifactLines,appendSorted_map,appendSorted_map,packageWords]
  simp only [List.map_cons,List.map_append,List.flatten_cons,List.flatten_append,List.map_map,List.flatMap,List.append_assoc,
    List.cons_append]
  rfl

theorem render_eq (l : Lockfile) : render l = (([kwLock,[49]] :: entries (arranged l)).map line).flatten := by
  have hblocks {A B : Type} (text : A → Str) (f : A → B) (g : B → List (List Str)) (as : List A)
      (h : ∀ a, text a = ((g (f a)).map line).flatten) :
      appendSorted (as.map text) = ((((sortedBy text as).map f).flatMap g).map line).flatten := by
    rw [appendSorted_map]
    induction sortedBy text as with
    | nil => rfl
    | cons a as ih =>
      rw [List.flatMap_cons,ih,h,List.map_cons,List.flatMap_cons,List.map_append,List.flatten_append]
  have hroot : (if l.rootName = [] then [] else line [kwRoot,l.rootName] ++ appendSorted (artifactLines l.rootArtifacts)) =
      ((if (arranged l).rootName = [] then [] else
        [kwRoot,(arranged l).rootName] :: (arranged l).rootArtifacts.map artifactWords).map line).flatten := by
    change _ = ((if l.rootName = [] then [] else _).map line).flatten
    split
    · rfl
    · rw [artifactLines,appendSorted_map,List.map_cons,List.flatten_cons,List.map_map,List.flatMap]
      rfl
  rw [render,hroot,hblocks memberBlock arrangedMember memberWords l.members memberBlock_eq,
    hblocks packageBlock arrangedPackage packageWords l.packages packageBlock_eq,entries,List.map_cons,List.flatten_cons,
    List.map_append,List.map_append,List.flatten_append,List.flatten_append]
  simp only [List.append_assoc]
  rfl

/-! ### Reading entries -/

def readEntries (d : Draft) : List (List Str) → Option Draft
  | [] => some d
  | ws :: rest => if ws = [] then readEntries d rest else (d.take ws).bind fun d => readEntries d rest

theorem readEntries_cons {e : Draft} (h : d.take ws = some e) : readEntries d (ws :: rest) = readEntries e rest := by
  cases ws with
  | nil => cases h
  | cons w ws =>
    rw [readEntries,if_neg nofun,h]
    rfl

theorem parseLines_ok {ls : List Str} : parseLines n (some d) ls = .ok l ↔
    (readEntries d (ls.map words)).map Draft.finished = some l := by
  induction ls generalizing d n with
  | nil =>
    rw [parseLines]
    simp [readEntries]
  | cons s ls ih =>
    rw [parseLines,List.map_cons,readEntries]
    split
    · exact ih
    · cases d.take (words s) with
      | none => simp
      | some e => exact ih

/-! ### What each line does -/

variable {name version url commit content : Str} {a : Artifact} {r : Str × Str} {m : LockMember} {p : LockPackage}

theorem take_root : d.take [kwRoot,name] = some { d.close with rootName := name, inRoot := true } := rfl

theorem take_member : d.take [kwMember,name] = some { d.close with inRoot := false, currentMember := some ⟨name,[]⟩ } := rfl

theorem take_package : d.take [kwPackage,name,version] =
    some { d.close with inRoot := false, current := some ⟨name,version,[],[],[],[],[]⟩ } := rfl

theorem take_source (h : d.current = some p) : d.take [kwSource,url,commit] =
    some { d with current := some { p with url := url, commit := commit } } := by
  change d.current.map _ = _
  rw [h]
  rfl

theorem take_content (h : d.current = some p) : d.take [kwContent,content] = some { d with current := some { p with content := content } } := by
  change d.current.map _ = _
  rw [h]
  rfl

theorem take_require (h : d.current = some p) : d.take (requireWords r) =
    some { d with current := some { p with requirements := p.requirements ++ [r] } } := by
  change d.current.map _ = _
  rw [h]
  rfl

theorem take_artifact (h : d.current = some p) : d.take (artifactWords a) =
    some { d with current := some { p with artifacts := p.artifacts ++ [a] } } := by
  change d.takeArtifact (artifactWords a) = _
  unfold Draft.takeArtifact artifactWords
  dsimp only
  rw [h]

theorem take_artifact_member (h : d.current = none) (hm : d.currentMember = some m) : d.take (artifactWords a) =
    some { d with currentMember := some { m with artifacts := m.artifacts ++ [a] } } := by
  change d.takeArtifact (artifactWords a) = _
  unfold Draft.takeArtifact artifactWords
  dsimp only
  rw [h,hm]

theorem take_artifact_root (h : d.current = none) (hm : d.currentMember = none) (hr : d.inRoot = true) :
    d.take (artifactWords a) = some { d with rootArtifacts := d.rootArtifacts ++ [a] } := by
  change d.takeArtifact (artifactWords a) = _
  unfold Draft.takeArtifact artifactWords
  dsimp only
  rw [h,hm,if_pos hr]

/-! ### What each block does -/

theorem read_rootArtifacts (h : d.current = none) (hm : d.currentMember = none) (hr : d.inRoot = true) :
    readEntries d (as.map artifactWords ++ rest) = readEntries { d with rootArtifacts := d.rootArtifacts ++ as } rest := by
  induction as generalizing d with
  | nil => rw [List.append_nil]; rfl
  | cons a as ih =>
    rw [List.map_cons,List.cons_append,readEntries_cons (take_artifact_root h hm hr),
      ih (d := { d with rootArtifacts := d.rootArtifacts ++ [a] }) h hm hr,List.append_assoc]
    rfl

theorem read_memberArtifacts (h : d.current = none) (hm : d.currentMember = some m) :
    readEntries d (as.map artifactWords ++ rest) =
      readEntries { d with currentMember := some { m with artifacts := m.artifacts ++ as } } rest := by
  induction as generalizing d m with
  | nil =>
    rw [List.append_nil,← hm]
    rfl
  | cons a as ih =>
    rw [List.map_cons,List.cons_append,readEntries_cons (take_artifact_member h hm),
      ih (d := { d with currentMember := some { m with artifacts := m.artifacts ++ [a] } }) h rfl,List.append_assoc]
    rfl

theorem read_artifacts (h : d.current = some p) : readEntries d (as.map artifactWords ++ rest) =
    readEntries { d with current := some { p with artifacts := p.artifacts ++ as } } rest := by
  induction as generalizing d p with
  | nil =>
    rw [List.append_nil,← h]
    rfl
  | cons a as ih =>
    rw [List.map_cons,List.cons_append,readEntries_cons (take_artifact h),
      ih (d := { d with current := some { p with artifacts := p.artifacts ++ [a] } }) rfl,List.append_assoc]
    rfl

theorem read_requirements {rs : List (Str × Str)} (h : d.current = some p) : readEntries d (rs.map requireWords ++ rest) =
    readEntries { d with current := some { p with requirements := p.requirements ++ rs } } rest := by
  induction rs generalizing d p with
  | nil =>
    rw [List.append_nil,← h]
    rfl
  | cons r rs ih =>
    rw [List.map_cons,List.cons_append,readEntries_cons (take_require h),
      ih (d := { d with current := some { p with requirements := p.requirements ++ [r] } }) rfl,List.append_assoc]
    rfl

theorem read_member : readEntries d (memberWords m ++ rest) =
    readEntries { d.close with inRoot := false, currentMember := some m } rest := by
  rw [memberWords,List.cons_append,readEntries_cons take_member,read_memberArtifacts rfl rfl]
  rfl

theorem read_package : readEntries d (packageWords p ++ rest) = readEntries { d.close with inRoot := false, current := some p } rest := by
  rw [packageWords]
  simp only [List.cons_append,List.append_assoc]
  rw [readEntries_cons take_package,readEntries_cons (take_source rfl),readEntries_cons (take_content rfl),read_requirements rfl,
    read_artifacts rfl]
  rfl

theorem read_members {ms : List LockMember} : ∃ e, readEntries d (ms.flatMap memberWords ++ rest) = readEntries e rest ∧
    e.finished = { d.finished with members := d.finished.members ++ ms } := by
  induction ms generalizing d with
  | nil => exact ⟨d,rfl,by rw [List.append_nil]⟩
  | cons m ms ih =>
    obtain ⟨e,he,hf⟩ := ih (d := { d.close with inRoot := false, currentMember := some m })
    refine ⟨e,?_,hf.trans ?_⟩
    · rw [List.flatMap_cons,List.append_assoc,read_member,he]
    · simp [Draft.finished,Draft.close]

theorem read_packages {ps : List LockPackage} : ∃ e, readEntries d (ps.flatMap packageWords ++ rest) = readEntries e rest ∧
    e.finished = { d.finished with packages := d.finished.packages ++ ps } := by
  induction ps generalizing d with
  | nil => exact ⟨d,rfl,by rw [List.append_nil]⟩
  | cons p ps ih =>
    obtain ⟨e,he,hf⟩ := ih (d := { d.close with inRoot := false, current := some p })
    refine ⟨e,?_,hf.trans ?_⟩
    · rw [List.flatMap_cons,List.append_assoc,read_package,he]
    · simp [Draft.finished,Draft.close]

def rooted (l : Lockfile) : Lockfile := if l.rootName = [] then { l with rootArtifacts := [] } else l

theorem read_entries (l : Lockfile) : (readEntries {} (entries l)).map Draft.finished = some (rooted l) := by
  have hroot : ∃ e : Draft, (∀ rest, readEntries {} ((if l.rootName = [] then [] else
      [kwRoot,l.rootName] :: l.rootArtifacts.map artifactWords) ++ rest) = readEntries e rest) ∧
      e.finished = ⟨l.rootName,(rooted l).rootArtifacts,[],[]⟩ := by
    unfold rooted
    split
    · rename_i hn
      exact ⟨{},fun _ => rfl,by rw [hn]; rfl⟩
    · refine ⟨{ rootName := l.rootName, inRoot := true, rootArtifacts := l.rootArtifacts },fun rest => ?_,rfl⟩
      rw [List.cons_append,readEntries_cons take_root,read_rootArtifacts rfl rfl rfl]
      rfl
  obtain ⟨e,he,hef⟩ := hroot
  obtain ⟨e',he',hef'⟩ := @read_members e (l.packages.flatMap packageWords) l.members
  obtain ⟨e'',he'',hef''⟩ := @read_packages e' [] l.packages
  rw [List.append_nil] at he''
  rw [entries,List.append_assoc,he,he',he'',readEntries,Option.map_some,hef'',hef',hef]
  unfold rooted
  split <;> rfl

end Ens.Packages
