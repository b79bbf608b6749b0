import Ens.Graph.Walk

/-! # Asking for a module

Whatever asks for a module, a root, an import or the library itself, does one thing to the queue: it adds the module asked for,
unless its canonical path is queued.
-/
set_option linter.all false
namespace Ens.Graph
open Builder

local instance lawfulPath : LawfulBEq Text := inferInstance

inductive Ask
  | seed (t : WorkItem)
  | library (modulePath : Text)
  | imported (item : WorkItem) (path : ImportPath)

/-- The root of the program is addressed without a prefix. -/
def Workspace.Rooted (P : Program) (w : Workspace) : Prop := w.folder = P.rootFolder → w.packagePrefix = []

def Ask.Rooted (P : Program) : Ask → Prop
  | .seed t => t.owner.Rooted P
  | .library _ => True
  | .imported item _ => item.owner.Rooted P

def Ask.Imports : Ask → Prop
  | .imported _ _ => True
  | _ => False

variable {P : Program} {build : Build} {b b' : Builder} {a : Ask} {t q item : WorkItem} {path : ImportPath} {c folder packagePrefix : Text}

namespace Builder

def perform (P : Program) (b : Builder) : Ask → Builder
  | .seed t => b.enqueue t
  | .library modulePath => b.enqueueLibrary P modulePath
  | .imported item path => (b.resolveImport P item path).2

def demand (P : Program) (build : Build) (b : Builder) : Ask → Option (Text × Option (Text × Text))
  | .seed t => some (t.canonicalPath,some t.place)
  | .library modulePath => if P.present (P.libraryPlace modulePath).2 then some (modulePath,some (P.libraryPlace modulePath)) else none
  | .imported item path => match (b.resolution P item path).1 with
    | .refused => none
    | .target canonical => some (canonical,P.named build item.owner.folder path)
    | .item t => if t.canonicalPath ∈ b.queuedPaths ∨ P.present t.file then some (t.canonicalPath,some t.place) else none

/-- What every state of the walk keeps: a canonical path is queued once, and the root has no prefix. -/
structure Kept (P : Program) (build : Build) (b : Builder) : Prop where
  first : P.rootFolder ∈ b.workspaces.map Workspace.folder
  root : ∀ w ∈ b.workspaces, w.Rooted P
  owners : ∀ t ∈ b.workItems, t.owner.Rooted P
  entry : b.entryAlias = build.entryAlias
  nodup : b.queuedPaths.Nodup
  nonempty : ∀ t ∈ b.workItems, t.canonicalPath ≠ []

structure Beside (b b' : Builder) : Prop where
  next : b'.nextWorkIndex = b.nextWorkIndex
  loaded : b'.loadedModules = b.loadedModules

theorem mem_queuedPaths : c ∈ b.queuedPaths ↔ ∃ q ∈ b.workItems, q.canonicalPath = c := List.mem_map

/-! ### Workspaces -/

theorem workspaceFor_items : (b.workspaceFor folder packagePrefix).2.workItems = b.workItems := by
  unfold workspaceFor
  split <;> rfl

theorem workspaceFor_beside : Beside b (b.workspaceFor folder packagePrefix).2 := by
  unfold workspaceFor
  split <;> exact ⟨rfl,rfl⟩

theorem workspaceFor_folder (b : Builder) (folder packagePrefix : Text) : (b.workspaceFor folder packagePrefix).1.folder = folder := by
  unfold workspaceFor
  split
  · rename_i w hw
    have hf := List.find?_some hw
    exact of_decide_eq_true hf
  · rfl

theorem workspaceFor_kept (hb : Kept P build b) (folder packagePrefix : Text) :
    Kept P build (b.workspaceFor folder packagePrefix).2 ∧ (b.workspaceFor folder packagePrefix).1.Rooted P := by
  unfold workspaceFor
  split
  · rename_i w hw
    exact ⟨hb,hb.root w (List.mem_of_find?_eq_some hw)⟩
  · rename_i hnone
    have hnew : (⟨folder,packagePrefix⟩ : Workspace).Rooted P := by
      rintro (rfl : folder = P.rootFolder)
      obtain ⟨w,hw,hf⟩ := List.mem_map.mp hb.first
      exact absurd (decide_eq_true hf) (List.find?_eq_none.mp hnone w hw)
    refine ⟨{ hb with first := ?_, root := fun w hw => ?_ },hnew⟩
    · rw [List.map_append]
      exact List.mem_append_left _ hb.first
    · rcases List.mem_append.mp hw with hw | hw
      · exact hb.root w hw
      · exact List.mem_singleton.mp hw ▸ hnew

/-! ### The queue -/

inductive Asked (P : Program) (build : Build) (b : Builder) (a : Ask) (b' : Builder) : Prop
  | same (hi : b'.workItems = b.workItems) (hd : ∀ c p, b.demand P build a = some (c,p) → c = [] ∨ c ∈ b.queuedPaths)
  | more {t : WorkItem} (hi : b'.workItems = b.workItems ++ [t]) (hd : b.demand P build a = some (t.canonicalPath,some t.place))
      (hn : t.canonicalPath ≠ []) (hq : t.canonicalPath ∉ b.queuedPaths)

theorem enqueue_beside : Beside b (b.enqueue t) := by
  unfold enqueue
  split_ifs <;> exact ⟨rfl,rfl⟩

theorem enqueue_kept (hb : Kept P build b) (ht : t.owner.Rooted P) : Kept P build (b.enqueue t) := by
  unfold enqueue
  split_ifs with hn hq
  · exact hb
  · exact hb
  · refine { hb with owners := fun s hs => ?_, nodup := ?_, nonempty := fun s hs => ?_ }
    · rcases List.mem_append.mp hs with hs | hs
      · exact hb.owners s hs
      · exact List.mem_singleton.mp hs ▸ ht
    · rw [queuedPaths,List.map_append]
      exact List.nodup_append.mpr ⟨hb.nodup,List.pairwise_singleton ..,fun c hc d hd h => hq (List.mem_singleton.mp hd ▸ h ▸ hc)⟩
    · rcases List.mem_append.mp hs with hs | hs
      · exact hb.nonempty s hs
      · exact List.mem_singleton.mp hs ▸ hn

/-- An ask that comes to offering one module to the queue of a state with the same items. -/
theorem enqueue_asked {b₁ : Builder} (hi : b₁.workItems = b.workItems) (hd : b.demand P build a = some (t.canonicalPath,some t.place)) :
    Asked P build b a (b₁.enqueue t) := by
  have hpaths : b₁.queuedPaths = b.queuedPaths := congrArg (List.map WorkItem.canonicalPath) hi
  unfold enqueue
  split_ifs with hn hq
  · exact .same hi fun c p h => .inl ((Prod.mk.inj (Option.some.inj (hd.symm.trans h))).1 ▸ hn)
  · exact .same hi fun c p h => .inr ((Prod.mk.inj (Option.some.inj (hd.symm.trans h))).1 ▸ hpaths ▸ hq)
  · exact .more (by rw [← hi]) hd hn (hpaths ▸ hq)

/-! ### One ask -/

structure Resolved (P : Program) (build : Build) (b : Builder) (item : WorkItem) (path : ImportPath) (r : Resolution × Builder) : Prop where
  kept : Kept P build r.2
  beside : Beside b r.2
  items : r.2.workItems = b.workItems
  refused : r.1 = .refused → P.named build item.owner.folder path = none
  meant : ∀ t, r.1 = .item t → t.owner.Rooted P ∧ P.named build item.owner.folder path = some t.place

theorem refused_resolved (hb : Kept P build b) (hn : P.named build item.owner.folder path = none) :
    Resolved P build b item path (.refused,b) :=
  ⟨hb,⟨rfl,rfl⟩,rfl,fun _ => hn,nofun⟩

theorem target_resolved (hb : Kept P build b) : Resolved P build b item path (.target c,b) := ⟨hb,⟨rfl,rfl⟩,rfl,nofun,nofun⟩

theorem workspace_resolved {relative canonical : Text} (hb : Kept P build b)
    (hn : P.named build item.owner.folder path = some (folder,join (P.sourceRootOf folder) relative)) :
    Resolved P build b item path (.item ⟨(b.workspaceFor folder packagePrefix).1,
      P.sourceRootOf (b.workspaceFor folder packagePrefix).1.folder,relative,canonical⟩,(b.workspaceFor folder packagePrefix).2) := by
  obtain ⟨hk,hr⟩ := workspaceFor_kept hb folder packagePrefix
  refine ⟨hk,workspaceFor_beside,workspaceFor_items,nofun,fun t ht => ?_⟩
  cases ht
  exact ⟨hr,by rw [hn,WorkItem.place,WorkItem.file,workspaceFor_folder]⟩

theorem resolveStdImport_spec {first : Text} {segments : List Text} (hb : Kept P build b) (hp : path.segments = first :: segments)
    (he : path.external = true) (hs : first = std) : Resolved P build b item path (b.resolveStdImport P path.segments) := by
  have hn : P.named build item.owner.folder path = if path.segments.length = 1 then none
      else some (P.stdlib,join (P.sourceRootOf P.stdlib) (relativeOfSegments path.segments 1)) := by
    rw [Program.named,hp]
    dsimp only
    rw [← hp,if_pos he,if_pos hs]
  unfold resolveStdImport
  split_ifs with hl
  · exact refused_resolved hb (hn.trans (if_pos hl))
  · exact workspace_resolved hb (hn.trans (if_neg hl))

theorem named_package {first : Text} {segments : List Text} (hp : path.segments = first :: segments) (he : path.external = true)
    (hs : first ≠ std) : P.named build item.owner.folder path =
      (P.matchPackage item.owner.folder path.segments path.segments.length).bind fun (count,target) =>
        if count = path.segments.length then none
        else some (target,join (P.sourceRootOf target) (relativeOfSegments path.segments count)) := by
  rw [Program.named,hp]
  dsimp only
  rw [← hp,if_pos he,if_neg hs]

theorem resolvePackageImport_spec {first : Text} {segments : List Text} (hb : Kept P build b) (hp : path.segments = first :: segments)
    (he : path.external = true) (hs : first ≠ std) : Resolved P build b item path (b.resolvePackageImport P item path.segments) := by
  have hn : P.named build item.owner.folder path = _ := named_package hp he hs
  unfold resolvePackageImport
  split
  · rename_i hm
    exact refused_resolved hb (by rw [hn,hm,Option.bind_none])
  · rename_i count target hm
    rw [hm,Option.bind_some] at hn
    split_ifs with hl
    · exact refused_resolved hb (hn.trans (if_pos hl))
    · exact workspace_resolved hb (hn.trans (if_neg hl))

theorem resolveBareImport_spec {first : Text} {segments : List Text} (hb : Kept P build b) (hr : item.owner.Rooted P)
    (hp : path.segments = first :: segments) (he : path.external = false) (hs : isStdlibPath (joinRange path.segments '.') = false) :
    Resolved P build b item path (b.resolveBareImport P item (joinRange path.segments '.'),b) := by
  unfold resolveBareImport
  split_ifs with ha
  · exact target_resolved hb
  · have hentry : ¬ (item.owner.folder = P.rootFolder ∧ build.entryAlias ≠ [] ∧ joinRange path.segments '.' = build.entryAlias) := by
      rintro ⟨hf,hne,hm⟩
      refine ha ⟨hb.entry ▸ hne,?_⟩
      rw [Workspace.canonicalPath,if_pos (hr hf),hb.entry,hm]
    have hn : P.named build item.owner.folder path =
        (P.baseFolderOf item.owner.folder (relativeOfModulePath (joinRange path.segments '.'))).map fun base =>
          (item.owner.folder,join base (relativeOfModulePath (joinRange path.segments '.'))) := by
      rw [Program.named,hp]
      dsimp only
      rw [← hp,he,if_neg Bool.false_ne_true,if_neg (Bool.eq_false_iff.mp hs),if_neg hentry]
    split
    · rename_i hbase
      exact refused_resolved hb (by rw [hn,hbase,Option.map_none])
    · rename_i base hbase
      refine ⟨hb,⟨rfl,rfl⟩,rfl,nofun,fun t ht => ?_⟩
      cases ht
      exact ⟨hr,by rw [hn,hbase]; rfl⟩

theorem resolution_spec (hb : Kept P build b) (hr : item.owner.Rooted P) (path : ImportPath) :
    Resolved P build b item path (b.resolution P item path) := by
  unfold resolution
  split
  · rename_i hp
    exact refused_resolved hb (by rw [Program.named,hp])
  · rename_i first segments hp
    split_ifs with he hs hl
    · exact resolveStdImport_spec hb hp he hs
    · exact resolvePackageImport_spec hb hp he hs
    · refine refused_resolved hb ?_
      rw [Program.named,hp]
      dsimp only
      rw [← hp,if_neg he,if_pos hl]
    · exact resolveBareImport_spec hb hr hp (Bool.eq_false_iff.mpr he) (Bool.eq_false_iff.mpr hl)

/-- Only an import of the entry file under its own path means a module that is queued from the start. -/
theorem resolution_target (h : (b.resolution P item path).1 = .target c) : c = main ∧ b.entryAlias ≠ [] := by
  unfold resolution at h
  split at h
  · cases h
  · split_ifs at h
    · unfold resolveStdImport at h
      split_ifs at h
    · unfold resolvePackageImport at h
      split at h
      · cases h
      · split_ifs at h
    · unfold resolveBareImport at h
      by_cases ha : b.entryAlias ≠ [] ∧ item.owner.canonicalPath (joinRange path.segments '.') = b.entryAlias
      · rw [if_pos ha] at h
        exact ⟨(Resolution.target.inj h).symm,ha.1⟩
      · rw [if_neg ha] at h
        split at h
        all_goals cases h

/-- What is asked for is added to the queue unless its canonical path is there. -/
theorem perform_spec (hb : Kept P build b) (ha : a.Rooted P) (hmain : a.Imports → build.entryAlias ≠ [] → main ∈ b.queuedPaths) :
    Kept P build (b.perform P a) ∧ Beside b (b.perform P a) ∧ Asked P build b a (b.perform P a) := by
  cases a with
  | seed t => exact ⟨enqueue_kept hb ha,enqueue_beside,enqueue_asked rfl rfl⟩
  | library m =>
    obtain ⟨hk,hr⟩ := workspaceFor_kept hb P.stdlib std
    have hplace : ∀ w : Workspace, w.folder = P.stdlib →
        (⟨w,P.sourceRootOf w.folder,stdlibRelativePath m,m⟩ : WorkItem).place = P.libraryPlace m := by
      rintro w hw
      rw [WorkItem.place,WorkItem.file,Program.libraryPlace,hw]
    have hf := hplace _ (workspaceFor_folder b P.stdlib std)
    unfold perform enqueueLibrary
    dsimp only
    split_ifs with hp
    · refine ⟨enqueue_kept hk hr,?_,enqueue_asked workspaceFor_items ?_⟩
      · exact ⟨enqueue_beside.next.trans workspaceFor_beside.next,enqueue_beside.loaded.trans workspaceFor_beside.loaded⟩
      · rw [demand,if_pos (congrArg Prod.snd hf ▸ hp),hf]
    · refine ⟨hk,workspaceFor_beside,.same workspaceFor_items fun c p hd => ?_⟩
      rw [demand,if_neg (congrArg Prod.snd hf ▸ hp)] at hd
      cases hd
  | imported item path =>
    obtain ⟨hk,hbeside,hi,-,hmeant⟩ := resolution_spec hb ha path
    have htarget : ∀ c, (b.resolution P item path).1 = .target c → c = main ∧ b.entryAlias ≠ [] := fun _ => resolution_target
    have hpaths : (b.resolution P item path).2.queuedPaths = b.queuedPaths := congrArg (List.map WorkItem.canonicalPath) hi
    rcases hr : b.resolution P item path with ⟨r,b₁⟩
    rw [hr] at hk hbeside hi hmeant htarget hpaths
    simp only [perform,resolveImport,hr]
    cases r with
    | refused =>
      refine ⟨hk,hbeside,.same hi fun c p hd => ?_⟩
      simp only [demand,hr] at hd
      cases hd
    | target canonical =>
      refine ⟨hk,hbeside,.same hi fun c p hd => .inr ?_⟩
      simp only [demand,hr,Option.some.injEq,Prod.mk.injEq] at hd
      obtain ⟨rfl,halias⟩ := htarget canonical rfl
      exact hd.1 ▸ hmain trivial (hb.entry ▸ halias)
    | item t =>
      dsimp only at hpaths ⊢
      rw [hpaths]
      split_ifs with hq hp
      · refine ⟨hk,hbeside,.same hi fun c p hd => .inr ?_⟩
        simp only [demand,hr,if_pos (Or.inl hq),Option.some.injEq,Prod.mk.injEq] at hd
        exact hd.1 ▸ hq
      · refine ⟨enqueue_kept hk (hmeant t rfl).1,?_,enqueue_asked hi ?_⟩
        · exact ⟨enqueue_beside.next.trans hbeside.next,enqueue_beside.loaded.trans hbeside.loaded⟩
        · simp only [demand,hr,if_pos (Or.inr hp)]
      · refine ⟨hk,hbeside,.same hi fun c p hd => ?_⟩
        simp only [demand,hr,if_neg (not_or.mpr ⟨hq,hp⟩)] at hd
        cases hd

theorem resolveImport_demand (hb : Kept P build b) (hr : item.owner.Rooted P) (path : ImportPath) :
    b.demand P build (.imported item path) = (b.resolveImport P item path).1.map fun c => (c,P.named build item.owner.folder path) := by
  obtain ⟨-,-,hi,-,hmeant⟩ := resolution_spec hb hr path
  have hpaths : (b.resolution P item path).2.queuedPaths = b.queuedPaths := congrArg (List.map WorkItem.canonicalPath) hi
  rcases hres : b.resolution P item path with ⟨r,b₁⟩
  rw [hres] at hmeant hpaths
  simp only [demand,resolveImport,hres]
  cases r with
  | refused => rfl
  | target c => rfl
  | item t =>
    dsimp only at hpaths ⊢
    rw [hpaths,(hmeant t rfl).2]
    by_cases hq : t.canonicalPath ∈ b.queuedPaths
    · rw [if_pos (Or.inl hq),if_pos hq]
      rfl
    · rw [if_neg hq]
      by_cases hp : P.present t.file = true
      · rw [if_pos (Or.inr hp),if_pos hp]
        rfl
      · rw [if_neg (not_or.mpr ⟨hq,hp⟩),if_neg hp]
        rfl

theorem resolveImport_none (hb : Kept P build b) (hr : item.owner.Rooted P) (h : (b.resolveImport P item path).1 = none) {p : Text × Text}
    (hp : P.named build item.owner.folder path = some p) : P.present p.2 = false := by
  obtain ⟨-,-,hi,hrefused,hmeant⟩ := resolution_spec hb hr path
  unfold resolveImport at h
  rcases hres : b.resolution P item path with ⟨r,b₁⟩
  rw [hres] at hmeant hrefused h
  cases r with
  | refused => exact absurd ((hrefused rfl).symm.trans hp) nofun
  | target c => cases h
  | item t =>
    have hplace := Option.some.inj ((hmeant t rfl).2.symm.trans hp)
    dsimp only at h
    split_ifs at h with hq hpresent
    exact hplace ▸ Bool.eq_false_iff.mpr hpresent

end Builder
end Ens.Graph
