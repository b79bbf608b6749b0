import Ens.Logic.Entries
import Ens.Packages.Versions

/-! # Settling where every package comes from

The rounds of a resolution: each one settles which version of each package the build uses from the
requirements gathered so far, and brings in what is missing, which adds requirements. What a version
that was superseded required stays gathered.
-/
set_option linter.all false
namespace Ens.Packages
open Entries

/-! ### What is read -/

structure Dependency where
  name : Str
  hasVersion : Bool
  version : Str
  hasSource : Bool
  url : Str
  deriving DecidableEq, Repr

structure Artifact where
  library : Str
  platform : Str
  url : Str
  digest : Str
  deriving DecidableEq, Repr

structure Survey where
  isPackage : Bool
  isWorkspace : Bool
  packageName : Str
  members : List Str
  requirements : List Dependency
  artifacts : List Artifact

structure Tree where
  survey : Option Survey
  member : Str → Option Survey

/-- What repositories and the cache hold: the commit and the digest of a version fetched from a
repository, whether the cache holds the files of a digest, and the files themselves. -/
structure Universe where
  cached : Bool
  fetch : Str → Str → Str → Option (Str × Str)
  stored : Str → Bool
  tree : Str → Tree

/-- The checkout a build is rooted at: its manifest and those of its members, the members of a workspace
around it, and for each overridden package the manifest it is redirected to with the members around that. -/
structure Checkout where
  root : Tree
  enclosing : List Str
  overrides : List (Str × Option Survey × List Str)

def Checkout.overridden (c : Checkout) (name : Str) : Bool := c.overrides.any fun o => o.1 = name

/-! ### Locks -/

structure LockPackage where
  name : Str
  version : Str
  url : Str
  commit : Str
  content : Str
  requirements : List (Str × Str)
  artifacts : List Artifact
  deriving DecidableEq, Repr

structure LockMember where
  name : Str
  artifacts : List Artifact
  deriving DecidableEq, Repr

structure Lockfile where
  rootName : Str := []
  rootArtifacts : List Artifact := []
  members : List LockMember := []
  packages : List LockPackage := []
  deriving DecidableEq, Repr

def Lockfile.find (l : Lockfile) (name : Str) : Option LockPackage := l.packages.find? fun p => p.name = name

def Lockfile.recordsAnything (l : Lockfile) : Bool :=
  !l.packages.isEmpty || !l.rootArtifacts.isEmpty || !l.members.isEmpty

/-! ### One resolution -/

structure Settled where
  version : Str
  url : Str
  commit : Str
  digest : Str
  requires : List (Str × Str)
  artifacts : List Artifact
  usable : Bool
  deriving DecidableEq, Repr

/-- What bringing one package in came to, with the problems of the requirements it states and what
stopped it. -/
structure Brought where
  settled : Settled
  added : List Requirement := []
  stated : List Problem := []
  problem : Option Problem := none

structure Run where
  gathered : List Requirement := []
  settled : List (Str × Settled) := []
  pinned : List Str := []
  problems : List Problem := []

def requirementOf (d : Dependency) : Option Requirement × List Problem :=
  match parsed d.version with
  | some v => (some ⟨d.name,v,if d.hasSource then d.url else []⟩,[])
  | none => (none,if d.hasSource then [.notAVersion d.name] else [])

def requirementsOf (ds : List Dependency) : List Requirement × List Problem :=
  (ds.filterMap fun d => (requirementOf d).1,ds.flatMap fun d => (requirementOf d).2)

def scan (c : Checkout) (memberNames : List Str) (s : Survey) : List Requirement × List Problem :=
  requirementsOf (s.requirements.filter fun d => !(d.name ∈ memberNames || c.overridden d.name || !d.hasVersion))

def memberPackages (t : Tree) (root : Survey) : List Survey :=
  (root.members.filterMap t.member).filter Survey.isPackage

def collectLocal (c : Checkout) : List Requirement × List Problem :=
  match c.root.survey with
  | none => ([],[])
  | some root =>
    let own :=
      if root.isWorkspace then
        (memberPackages c.root root).map (scan c ((memberPackages c.root root).map Survey.packageName))
      else if root.isPackage then [scan c c.enclosing root]
      else []
    let redirected := c.overrides.filterMap fun (_,target,around) =>
      match target with
      | some s => if s.isPackage then some (scan c around s) else none
      | none => none
    ((own ++ redirected).flatMap Prod.fst,(own ++ redirected).flatMap Prod.snd)

/-- The version a lock records, as one more requirement, where it is from the same repository and of
the same major version. -/
def pin (previous : Lockfile) (gathered : List Requirement) (name : Str) : Option Requirement :=
  match forPackage gathered name with
  | [] => none
  | first :: rest =>
    let url := firstUrl (first :: rest)
    if url = [] then none
    else match previous.find name with
      | none => none
      | some locked =>
        if locked.url ≠ url then none
        else match parsed locked.version with
          | none => none
          | some recorded => if sameMajor recorded first.version then some ⟨name,recorded,url⟩ else none

def pinOne (previous : Lockfile) (g : List Requirement × List Str) (name : Str) : List Requirement × List Str :=
  if name ∈ g.2 then g else (g.1 ++ (pin previous g.1 name).toList,g.2 ++ [name])

def addLockPins (previous : Lockfile) (g : List Requirement × List Str) : List Requirement × List Str :=
  (names g.1).foldl (pinOne previous) g

def unusable (c : Choice) : Brought where
  settled := ⟨c.version.written,c.url,[],[],[],[],false⟩
  problem := some (.unusable c.name)

/-- A package found in the fetched files. What is required of the fetched files themselves is left out. -/
def provided (co : Checkout) (c : Choice) (commit digest : Str) (memberNames : List Str) (manifest : Survey) : Brought :=
  let kept := manifest.requirements.filter fun d => !(!d.hasVersion || d.name ∈ memberNames)
  let required := requirementsOf (kept.filter fun d => !co.overridden d.name)
  { settled := ⟨c.version.written,c.url,commit,digest,kept.map fun d => (d.name,d.version),manifest.artifacts,true⟩
    added := required.1
    stated := required.2 }

def fromTree (co : Checkout) (c : Choice) (t : Tree) (commit digest : Str) : Brought :=
  match t.survey with
  | none => unusable c
  | some s =>
    if s.isPackage then
      if s.packageName ≠ c.name then unusable c else provided co c commit digest [] s
    else if s.isWorkspace then
      -- the last member that declares the package is the one taken
      match ((memberPackages t s).filter fun m => m.packageName = c.name).getLast? with
      | some m => provided co c commit digest ((memberPackages t s).map Survey.packageName) m
      | none => unusable c
    else unusable c

def pinnedHere (previous : Lockfile) (c : Choice) : Option LockPackage :=
  (previous.find c.name).filter fun locked => locked.version = c.version.written ∧ locked.url = c.url

/-- Brings a version in from the cache when the lock pins what it holds, and from its repository
otherwise. Files that are not those the lock records are refused. -/
def bring (u : Universe) (co : Checkout) (previous : Lockfile) (c : Choice) : Brought :=
  let fetched (expected : Option LockPackage) : Brought :=
    match u.fetch c.name c.url c.version.written with
    | none => unusable c
    | some (commit,digest) =>
      if expected.any fun locked => locked.content ≠ digest then unusable c
      else fromTree co c (u.tree digest) commit digest
  if !u.cached then unusable c
  else match pinnedHere previous c with
    | some locked =>
      if u.stored locked.content ∧ (u.tree locked.content).survey.isSome then
        fromTree co c (u.tree locked.content) locked.commit locked.content
      else fetched (some locked)
    | none => fetched none

def outstanding (settled : List (Str × Settled)) (choices : List Choice) : List Choice :=
  choices.filter fun c =>
    match lookup settled c.name with
    | some already => already.version ≠ c.version.written
    | none => true

def foldIn (r : Run) (batch : List (Choice × Brought)) : Run :=
  batch.foldl (fun r b =>
    { r with settled := insert r.settled b.1.name b.2.settled, gathered := r.gathered ++ b.2.added }) r

def bringEverything (u : Universe) (co : Checkout) (previous : Lockfile) : ℕ → Run → Run
  | 0, r => { r with problems := r.problems ++ [.unsettled] }
  | rounds + 1, r =>
    let (gathered,pinned) := addLockPins previous (r.gathered,r.pinned)
    let r := { r with gathered := gathered, pinned := pinned }
    let (choices,failures) := select gathered
    if failures ≠ [] then { r with problems := r.problems ++ failures }
    else
      let batch := (outstanding r.settled choices).map fun c => (c,bring u co previous c)
      if batch = [] then r
      else
        let r := foldIn { r with problems := r.problems ++ batch.flatMap fun b => b.2.stated } batch
        let refused := batch.filterMap fun b => b.2.problem
        if refused ≠ [] then { r with problems := r.problems ++ (select r.gathered).2 ++ refused }
        else bringEverything u co previous rounds r

def sortedKeys (settled : List (Str × Settled)) : List Str := (settled.map Prod.fst).insertionSort (· ≤ ·)

def lockPackage (name : Str) (s : Settled) : LockPackage :=
  ⟨name,s.version,s.url,s.commit,s.digest,s.requires,s.artifacts⟩

def memberArtifacts (c : Checkout) : List LockMember :=
  match c.root.survey with
  | some root =>
    if root.isWorkspace then
      (((memberPackages c.root root).map fun m => ⟨m.packageName,m.artifacts⟩).filter fun m : LockMember =>
        !m.artifacts.isEmpty).insertionSort fun a b => a.name ≤ b.name
    else []
  | none => []

def newLock (c : Checkout) (settled : List (Str × Settled)) : Lockfile where
  rootName := ((c.root.survey.filter Survey.isPackage).map Survey.packageName).getD []
  rootArtifacts := ((c.root.survey.filter Survey.isPackage).map Survey.artifacts).getD []
  members := memberArtifacts c
  packages := (sortedKeys settled).filterMap fun name =>
    ((lookup settled name).filter Settled.usable).map (lockPackage name)

def rendered (l : Lockfile) : Lockfile :=
  let sorted (as : List Artifact) := as.insertionSort fun a b =>
    a.library ++ [32] ++ a.platform ++ [32] ++ a.url ++ [32] ++ a.digest ≤
      b.library ++ [32] ++ b.platform ++ [32] ++ b.url ++ [32] ++ b.digest
  { rootName := l.rootName
    rootArtifacts := if l.rootName = [] then [] else sorted l.rootArtifacts
    members := (l.members.map fun m => { m with artifacts := sorted m.artifacts }).insertionSort fun a b => a.name ≤ b.name
    packages := (l.packages.map fun p => { p with
      requirements := p.requirements.insertionSort fun a b => a.1 ++ [32] ++ a.2 ≤ b.1 ++ [32] ++ b.2
      artifacts := sorted p.artifacts }).insertionSort fun a b => a.name ≤ b.name }

def same (before after : Lockfile) : Bool := rendered before = rendered after

/-- What resolving comes to: the lock a build keeps, none where there is nothing to record, or problems.
The rounds are limited to 64. -/
def resolve (u : Universe) (c : Checkout) (previous : Option Lockfile) (locked : Bool) :
    Except (List Problem) (Option Lockfile) :=
  let start := collectLocal c
  let r := bringEverything u c (previous.getD {}) 64 { gathered := start.1, problems := start.2 }
  if r.problems ≠ [] then .error r.problems
  else
    let resolved := newLock c r.settled
    if !resolved.recordsAnything then
      if previous.isSome ∧ locked then .error [.lockChanges] else .ok none
    else if previous.any fun p => same p resolved then .ok (some resolved)
    else if locked then .error [.lockChanges]
    else .ok (some resolved)

end Ens.Packages
