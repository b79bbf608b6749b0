import Mathlib.Data.List.Basic
import Mathlib.Logic.Function.Iterate

/-! # The module graph

A walk from seed files loads every module it reaches, each under a canonical path that joins the name of its package and its
path in it. Paths and names are texts, and a folder is known by its key.
-/
set_option linter.all false
namespace Ens.Graph

abbrev Text := List Char

local instance lawfulText : LawfulBEq Text := inferInstance

def joinRange (parts : List Text) (separator : Char) : Text := List.intercalate [separator] parts

def join (folder relative : Text) : Text := folder ++ '/' :: relative

def replace (text : Text) (a b : Char) : Text := text.map fun c => if c = a then b else c

def ens : Text := ['.','e','n','s']
def std : Text := ['s','t','d']
def main : Text := ['m','a','i','n']
def src : Text := ['s','r','c']

def modulePathOfRelative (relative : Text) : Text :=
  replace (if ens <:+ relative then relative.take (relative.length - ens.length) else relative) '/' '.'

def relativeOfModulePath (modulePath : Text) : Text := replace modulePath '.' '/' ++ ens

def relativeOfSegments (segments : List Text) (start : ℕ) : Text := joinRange (segments.drop start) '/' ++ ens

def stdlibRelativePath (modulePath : Text) : Text := relativeOfModulePath (modulePath.drop (std.length + 1))

def isStdlibPath (modulePath : Text) : Bool := decide (modulePath = std) || (std ++ ['.']).isPrefixOf modulePath

structure ImportPath where
  external : Bool
  segments : List Text
  deriving DecidableEq

structure ParsedFile where
  imports : List ImportPath
  readsFolder : Bool := false
  callsFrozen : Bool := false

/-- What the walk reads: the files, the packages with the folders their dependencies were found in, and the two roots. -/
structure Program where
  present : Text → Bool
  readText : Text → Option ParsedFile
  dependencyFolders : Text → List (Text × Text)
  rootFolder : Text
  sourceRoot : Text
  testsRoot : Option Text
  stdlib : Text

structure Workspace where
  folder : Text
  packagePrefix : Text
  deriving DecidableEq

def Workspace.canonicalPath (w : Workspace) (modulePath : Text) : Text :=
  if w.packagePrefix = [] then modulePath else w.packagePrefix ++ '.' :: modulePath

structure WorkItem where
  owner : Workspace
  baseFolder : Text
  relativePath : Text
  canonicalPath : Text
  deriving DecidableEq

def WorkItem.file (t : WorkItem) : Text := join t.baseFolder t.relativePath

def WorkItem.place (t : WorkItem) : Text × Text := (t.owner.folder,t.file)

structure Module where
  item : WorkItem
  declarationTargets : List (ImportPath × Option Text)
  deriving DecidableEq

structure Builder where
  workspaces : List Workspace
  workItems : List WorkItem := []
  nextWorkIndex : ℕ := 0
  loadedModules : List Module := []
  entryAlias : Text := []

namespace Program
variable (P : Program)

def sourceRootOf (folder : Text) : Text := if folder = P.rootFolder then P.sourceRoot else join folder src

def testsRootOf (folder : Text) : Option Text := if folder = P.rootFolder then P.testsRoot else none

def seedBase : Text := P.testsRoot.getD P.sourceRoot

def matchPackage (folder : Text) (segments : List Text) : ℕ → Option (ℕ × Text)
  | 0 => none
  | n + 1 => match (P.dependencyFolders folder).lookup (joinRange (segments.take (n + 1)) '.') with
    | some target => some (n + 1,target)
    | none => matchPackage folder segments n

def baseFolderOf (folder relative : Text) : Option Text :=
  match P.testsRootOf folder with
  | none => some (P.sourceRootOf folder)
  | some tests =>
    match P.present (join (P.sourceRootOf folder) relative), P.present (join tests relative) with
    | true, true => none
    | false, true => some tests
    | _, false => some (P.sourceRootOf folder)

end Program

namespace Builder
variable (P : Program)

def queuedPaths (b : Builder) : List Text := b.workItems.map WorkItem.canonicalPath

def workspaceFor (b : Builder) (folder packagePrefix : Text) : Workspace × Builder :=
  match b.workspaces.find? fun w => decide (w.folder = folder) with
  | some w => (w,b)
  | none => (⟨folder,packagePrefix⟩,{ b with workspaces := b.workspaces ++ [⟨folder,packagePrefix⟩] })

def enqueue (b : Builder) (t : WorkItem) : Builder :=
  if t.canonicalPath = [] then b
  else if t.canonicalPath ∈ b.queuedPaths then b
  else { b with workItems := b.workItems ++ [t] }

/-- What an import comes to before the queue is asked: it is diagnosed, it means a module that is queued from the start, or it
means this one. -/
inductive Resolution
  | refused
  | target (canonical : Text)
  | item (t : WorkItem)

def resolveStdImport (b : Builder) (segments : List Text) : Resolution × Builder :=
  if segments.length = 1 then (.refused,b)
  else
    let (target,b) := b.workspaceFor P.stdlib std
    (.item ⟨target,P.sourceRootOf target.folder,relativeOfSegments segments 1,joinRange segments '.'⟩,b)

def resolvePackageImport (b : Builder) (item : WorkItem) (segments : List Text) : Resolution × Builder :=
  match P.matchPackage item.owner.folder segments segments.length with
  | none => (.refused,b)
  | some (count,folder) =>
    if count = segments.length then (.refused,b)
    else
      let (target,b) := b.workspaceFor folder (joinRange (segments.take count) '.')
      (.item ⟨target,P.sourceRootOf target.folder,relativeOfSegments segments count,joinRange segments '.'⟩,b)

def resolveBareImport (b : Builder) (item : WorkItem) (modulePath : Text) : Resolution :=
  if b.entryAlias ≠ [] ∧ item.owner.canonicalPath modulePath = b.entryAlias then .target main
  else match P.baseFolderOf item.owner.folder (relativeOfModulePath modulePath) with
    | none => .refused
    | some base => .item ⟨item.owner,base,relativeOfModulePath modulePath,item.owner.canonicalPath modulePath⟩

def resolution (b : Builder) (item : WorkItem) (path : ImportPath) : Resolution × Builder :=
  match path.segments with
  | [] => (.refused,b)
  | first :: _ =>
    if path.external then
      if first = std then b.resolveStdImport P path.segments
      else b.resolvePackageImport P item path.segments
    else if isStdlibPath (joinRange path.segments '.') then (.refused,b)
    else (b.resolveBareImport P item (joinRange path.segments '.'),b)

def resolveImport (b : Builder) (item : WorkItem) (path : ImportPath) : Option Text × Builder :=
  match b.resolution P item path with
  | (.refused,b) => (none,b)
  | (.target canonical,b) => (some canonical,b)
  | (.item t,b) =>
    if t.canonicalPath ∈ b.queuedPaths then (some t.canonicalPath,b)
    else if P.present t.file then (some t.canonicalPath,b.enqueue t)
    else (none,b)

def resolveImports (b : Builder) (item : WorkItem) : List ImportPath → List (ImportPath × Option Text) × Builder
  | [] => ([],b)
  | path :: paths =>
    let (target,b) := b.resolveImport P item path
    let (targets,b) := b.resolveImports item paths
    ((path,target) :: targets,b)

/-- A module of the standard library that no import asks for. -/
def enqueueLibrary (b : Builder) (modulePath : Text) : Builder :=
  let (target,b) := b.workspaceFor P.stdlib std
  let t : WorkItem := ⟨target,P.sourceRootOf target.folder,stdlibRelativePath modulePath,modulePath⟩
  if P.present t.file then b.enqueue t else b

end Builder

def coreModule : Text := ['s','t','d','.','c','o','r','e']
def printModule : Text := ['s','t','d','.','i','o','.','p','r','i','n','t']
def textModule : Text := ['s','t','d','.','t','e','x','t','.','s','t','r','i','n','g']
def numbersModule : Text := ['s','t','d','.','t','e','x','t','.','n','u','m','b','e','r','s']
def binaryModule : Text := ['s','t','d','.','b','i','n','a','r','y']
def embedModule : Text := ['s','t','d','.','e','m','b','e','d']
def frozenModule : Text := ['s','t','d','.','c','o','l','l','e','c','t','i','o','n','s','.','f','r','o','z','e','n']

def implicitImportPaths : List Text := [coreModule,printModule]
def bindingModulePaths : List Text := [textModule,numbersModule,binaryModule]

def ParsedFile.libraries (file : ParsedFile) : List Text :=
  (if file.readsFolder then [embedModule,frozenModule] else []) ++ (if file.callsFrozen then [frozenModule] else [])

inductive Build
  | files (seedFiles : List Text)
  | withTests (sourceSeeds testSeeds : List Text)
  | program (entryFile : Text)

def Build.entryAlias : Build → Text
  | .program entry => if modulePathOfRelative entry = main then [] else modulePathOfRelative entry
  | _ => []

namespace Builder
variable (P : Program)

def enqueueImplicitImports (b : Builder) : Builder := (implicitImportPaths ++ bindingModulePaths).foldl (enqueueLibrary P) b

/-- The seeds of a build are modules of the root, those from the sources of the standard library modules of that library. -/
def seedItems (library : Workspace) : Build → List WorkItem
  | .files seeds => if P.testsRoot = none ∧ P.rootFolder = P.stdlib then librarySeeds seeds else rootSeeds P.seedBase seeds
  | .withTests sources tests =>
    (if P.rootFolder = P.stdlib then librarySeeds sources else rootSeeds P.sourceRoot sources) ++ rootSeeds P.seedBase tests
  | .program entry => [⟨⟨P.rootFolder,[]⟩,P.seedBase,entry,main⟩]
where
  rootSeeds (base : Text) (seeds : List Text) : List WorkItem :=
    seeds.map fun seed => ⟨⟨P.rootFolder,[]⟩,base,seed,modulePathOfRelative seed⟩
  librarySeeds (seeds : List Text) : List WorkItem :=
    seeds.map fun seed => ⟨library,P.sourceRootOf library.folder,seed,std ++ '.' :: modulePathOfRelative seed⟩

def initial (build : Build) : Builder := { workspaces := [⟨P.rootFolder,[]⟩], entryAlias := build.entryAlias }

def start (build : Build) : Builder :=
  let (library,b) := (enqueueImplicitImports P (initial P build)).workspaceFor P.stdlib std
  (seedItems P library build).foldl enqueue b

def process (b : Builder) (item : WorkItem) (file : ParsedFile) : Builder :=
  let (targets,b) := b.resolveImports P item file.imports
  let b := file.libraries.foldl (enqueueLibrary P) b
  { b with loadedModules := b.loadedModules ++ [⟨item,targets⟩] }

def step (b : Builder) : Builder :=
  match b.workItems[b.nextWorkIndex]? with
  | none => b
  | some item =>
    let b := { b with nextWorkIndex := b.nextWorkIndex + 1 }
    match P.readText item.file with
    | none => b
    | some file => b.process P item file

def walk (build : Build) (n : ℕ) : Builder := (step P)^[n] (start P build)

end Builder

end Ens.Graph

/-! ## What the imports of a graph name

The rules of a package name a file for each of its imports, whatever the walk has queued. A walk is right when it
answers every import by these rules and loads each file they reach once.
-/
namespace Ens.Graph

namespace Program
variable (P : Program) (build : Build)

def libraryPlace (modulePath : Text) : Text × Text := (P.stdlib,join (P.sourceRootOf P.stdlib) (stdlibRelativePath modulePath))

def entryPlace : Option (Text × Text) :=
  match build with
  | .program entry => some (P.rootFolder,join P.seedBase entry)
  | _ => none

/-- The package and the file an import written in a package names by the rules of that package, whether the file is there or not. -/
def named (folder : Text) (path : ImportPath) : Option (Text × Text) :=
  match path.segments with
  | [] => none
  | first :: _ =>
    if path.external then
      if first = std then
        if path.segments.length = 1 then none
        else some (P.stdlib,join (P.sourceRootOf P.stdlib) (relativeOfSegments path.segments 1))
      else
        (P.matchPackage folder path.segments path.segments.length).bind fun (count,target) =>
          if count = path.segments.length then none
          else some (target,join (P.sourceRootOf target) (relativeOfSegments path.segments count))
    else
      let modulePath := joinRange path.segments '.'
      if isStdlibPath modulePath then none
      else if folder = P.rootFolder ∧ build.entryAlias ≠ [] ∧ modulePath = build.entryAlias then P.entryPlace build
      else (P.baseFolderOf folder (relativeOfModulePath modulePath)).map fun base => (folder,join base (relativeOfModulePath modulePath))

def roots : List (Text × (Text × Text)) :=
  let own (base seed : Text) := (modulePathOfRelative seed,P.rootFolder,join base seed)
  let library (seed : Text) := (std ++ '.' :: modulePathOfRelative seed,P.stdlib,join (P.sourceRootOf P.stdlib) seed)
  match build with
  | .files seeds => if P.testsRoot = none ∧ P.rootFolder = P.stdlib then seeds.map library else seeds.map (own P.seedBase)
  | .withTests sources tests =>
    (if P.rootFolder = P.stdlib then sources.map library else sources.map (own P.sourceRoot)) ++ tests.map (own P.seedBase)
  | .program entry => [(main,P.rootFolder,join P.seedBase entry)]

/-- The modules that the imports of a program reach from its roots, each by the rules of the package that imports it. -/
inductive Reached : Text × Text → Prop
  | root {c p} (h : (c,p) ∈ P.roots build) : Reached p
  | implicit {m} (h : m ∈ implicitImportPaths ++ bindingModulePaths) (hp : P.present (P.libraryPlace m).2) : Reached (P.libraryPlace m)
  | imported {p q file path} (h : Reached p) (hf : P.readText p.2 = some file) (hi : path ∈ file.imports)
      (hn : P.named build p.1 path = some q) (hq : P.present q.2) : Reached q
  | needed {p file m} (h : Reached p) (hf : P.readText p.2 = some file) (hm : m ∈ file.libraries)
      (hp : P.present (P.libraryPlace m).2) : Reached (P.libraryPlace m)

end Program

end Ens.Graph
