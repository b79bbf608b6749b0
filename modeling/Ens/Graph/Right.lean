import Ens.Graph.Answers

/-! # Graphs that hold what their imports name

The walk answers every import by the rules of the package that writes it, and loads every file these rules reach once, exactly when
no canonical path it comes to spell is queued for another file and no file is queued under another path.
-/
set_option linter.all false
namespace Ens.Graph
open Builder
variable {P : Program} {build : Build} {b : Builder} {n k i : ℕ} {q item : WorkItem} {file : ParsedFile} {m : Module}

structure Loads (P : Program) (build : Build) : Prop where
  roots : ∀ r ∈ P.roots build, Settled (start P build) r.1 r.2
  implicit : ∀ l ∈ implicitImportPaths ++ bindingModulePaths, P.present (P.libraryPlace l).2 →
    Settled (start P build) l (P.libraryPlace l)
  imports : ∀ n, ∀ m ∈ (walk P build n).loadedModules, ∀ path c, (path,some c) ∈ m.declarationTargets →
    ∃ p, P.named build m.item.owner.folder path = some p ∧ Settled (walk P build n) c p
  needs : ∀ n, ∀ m ∈ (walk P build n).loadedModules, ∀ file, P.readText m.item.file = some file → ∀ l ∈ file.libraries,
    P.present (P.libraryPlace l).2 → Settled (walk P build n) l (P.libraryPlace l)
  apart : ∀ n, ∀ q ∈ (walk P build n).workItems, ∀ r ∈ (walk P build n).workItems, q.canonicalPath = r.canonicalPath → q.file = r.file
  once : ∀ n, ((walk P build n).loadedModules.map fun m => m.item.file).Nodup
  reached : ∀ p, P.Reached build p → (P.readText p.2).isSome → ∃ n, ∃ m ∈ (walk P build n).loadedModules, m.item.place = p

def Builder.advanced (b : Builder) : Builder := { b with nextWorkIndex := b.nextWorkIndex + 1 }

def library (P : Program) (build : Build) : Workspace × Builder :=
  ((initial P build).performAll P ((implicitImportPaths ++ bindingModulePaths).map .library)).workspaceFor P.stdlib std

/-- Whenever a module is asked for, its canonical path is queued for no other place, and is queued before its file is
queued under another path. -/
structure Unambiguous (P : Program) (build : Build) : Prop where
  implicit : MeetsAll P build (initial P build) ((implicitImportPaths ++ bindingModulePaths).map .library)
  seeds : MeetsAll P build (library P build).2 ((seedItems P (library P build).1 build).map .seed)
  files : ∀ n item file, (walk P build n).workItems[(walk P build n).nextWorkIndex]? = some item → P.readText item.file = some file →
    MeetsAll P build (walk P build n).advanced (fileAsks item file)

/-! ### The start -/

theorem initial_kept : Kept P build (initial P build) where
  first := List.mem_singleton_self _
  root := fun w hw => by rw [List.mem_singleton.mp hw]; exact fun _ => rfl
  owners := nofun
  entry := rfl
  nodup := List.Pairwise.nil
  nonempty := nofun

theorem ready_libraries {modules : List Text} (hb : Kept P build b) : Ready P build b (modules.map .library) where
  kept := hb
  rooted := fun a ha => by
    obtain ⟨m,-,rfl⟩ := List.mem_map.mp ha
    trivial
  main := fun a ha hi => by
    obtain ⟨m,-,rfl⟩ := List.mem_map.mp ha
    exact hi.elim

theorem ready_imports {paths : List ImportPath} (hb : Kept P build b) (hr : item.owner.Rooted P)
    (hm : build.entryAlias ≠ [] → main ∈ b.queuedPaths) : Ready P build b (paths.map (.imported item)) where
  kept := hb
  rooted := fun a ha => by
    obtain ⟨m,-,rfl⟩ := List.mem_map.mp ha
    exact hr
  main := fun _ _ _ => hm

theorem seedItems_rooted {w : Workspace} (hw : w.Rooted P) (ht : q ∈ seedItems P w build) : q.owner.Rooted P := by
  have hown : ∀ base seeds, ∀ t ∈ seedItems.rootSeeds P base seeds, t.owner.Rooted P := by
    intro base seeds t ht
    obtain ⟨seed,-,rfl⟩ := List.mem_map.mp ht
    exact fun _ => rfl
  have hlib : ∀ seeds, ∀ t ∈ seedItems.librarySeeds P w seeds, t.owner.Rooted P := by
    intro seeds t ht
    obtain ⟨seed,-,rfl⟩ := List.mem_map.mp ht
    exact hw
  cases build with
  | files seeds =>
    rw [seedItems] at ht
    split_ifs at ht
    · exact hlib _ _ ht
    · exact hown _ _ _ ht
  | withTests sources tests =>
    rw [seedItems] at ht
    rcases List.mem_append.mp ht with ht | ht
    · split_ifs at ht
      · exact hlib _ _ ht
      · exact hown _ _ _ ht
    · exact hown _ _ _ ht
  | program entry =>
    rw [List.mem_singleton.mp ht]
    exact fun _ => rfl

theorem ready_seeds {w : Workspace} (hb : Kept P build b) (hw : w.Rooted P) : Ready P build b ((seedItems P w build).map .seed) where
  kept := hb
  rooted := fun a ha => by
    obtain ⟨t,ht,rfl⟩ := List.mem_map.mp ha
    exact seedItems_rooted hw ht
  main := fun a ha hi => by
    obtain ⟨m,-,rfl⟩ := List.mem_map.mp ha
    exact hi.elim

theorem start_eq : start P build = (library P build).2.performAll P ((seedItems P (library P build).1 build).map .seed) := by
  rw [← seeds_perform]
  unfold start library enqueueImplicitImports
  rw [libraries_perform]

theorem library_kept (P : Program) (build : Build) : Kept P build (library P build).2 ∧ (library P build).1.Rooted P :=
  workspaceFor_kept (ready_libraries initial_kept).all.1 ..

theorem library_items : (library P build).2.workItems =
    ((initial P build).performAll P ((implicitImportPaths ++ bindingModulePaths).map .library)).workItems := workspaceFor_items

theorem seeds_ready (P : Program) (build : Build) : Ready P build (library P build).2 ((seedItems P (library P build).1 build).map .seed) :=
  have h := (library_kept P build)
  ready_seeds h.1 h.2

theorem implicit_ready (P : Program) (build : Build) : Ready P build (initial P build) ((implicitImportPaths ++ bindingModulePaths).map .library) :=
  ready_libraries initial_kept

theorem start_kept : Kept P build (start P build) := start_eq ▸ (seeds_ready ..).all.1

theorem seedItems_roots : (seedItems P (library P build).1 build).map (fun t => (t.canonicalPath,t.place)) = P.roots build := by
  have hfolder : (library P build).1.folder = P.stdlib := workspaceFor_folder ..
  have hlib : ∀ seeds, (seedItems.librarySeeds P (library P build).1 seeds).map (fun t => (t.canonicalPath,t.place)) =
      seeds.map fun seed => (std ++ '.' :: modulePathOfRelative seed,P.stdlib,join (P.sourceRootOf P.stdlib) seed) := by
    intro seeds
    simp only [seedItems.librarySeeds,List.map_map,Function.comp_def,WorkItem.place,WorkItem.file,hfolder]
  have hown : ∀ base seeds, (seedItems.rootSeeds P base seeds).map (fun t => (t.canonicalPath,t.place)) =
      seeds.map fun seed => (modulePathOfRelative seed,P.rootFolder,join base seed) := by
    intro base seeds
    simp only [seedItems.rootSeeds,List.map_map,Function.comp_def,WorkItem.place,WorkItem.file]
  cases build with
  | files seeds =>
    rw [seedItems,Program.roots]
    split_ifs
    · exact hlib seeds
    · exact hown _ seeds
  | withTests sources tests =>
    rw [seedItems,Program.roots,List.map_append,hown]
    split_ifs
    · rw [hlib]
    · rw [hown]
  | program entry => rfl

theorem start_beside : (start P build).nextWorkIndex = 0 ∧ (start P build).loadedModules = [] := by
  have hseeds := (seeds_ready P build).all.2.1
  have hlibrary : Beside _ (library P build).2 := workspaceFor_beside
  have himplicit := (implicit_ready P build).all.2.1
  rw [start_eq,hseeds.next,hseeds.loaded,hlibrary.next,hlibrary.loaded,himplicit.next,himplicit.loaded]
  exact ⟨rfl,rfl⟩

theorem enqueue_queued (ht : q.canonicalPath ≠ []) : q.canonicalPath ∈ (b.enqueue q).queuedPaths := by
  unfold enqueue
  rw [if_neg ht]
  split_ifs with hq
  · exact hq
  · exact mem_queuedPaths.mpr ⟨q,List.mem_append_right _ (List.mem_singleton_self q),rfl⟩

theorem start_main (h : build.entryAlias ≠ []) : main ∈ (start P build).queuedPaths := by
  cases build with
  | files seeds => exact absurd rfl h
  | withTests sources tests => exact absurd rfl h
  | program entry =>
    rw [start_eq,seedItems,List.map_singleton,performAll,List.foldl_cons,List.foldl_nil,perform]
    exact enqueue_queued (q := ⟨⟨P.rootFolder,[]⟩,P.seedBase,entry,main⟩) (by simp [main])

/-! ### One work item -/

theorem walk_succ : walk P build (n + 1) = step P (walk P build n) := Function.iterate_succ_apply' ..

theorem advanced_kept (hb : Kept P build b) : Kept P build b.advanced := { hb with }

structure Going (P : Program) (build : Build) (b : Builder) : Prop where
  kept : Kept P build b
  main : build.entryAlias ≠ [] → main ∈ b.queuedPaths

theorem Going.ready (h : Going P build b) (hi : item ∈ b.workItems) : Ready P build b.advanced (fileAsks item file) where
  kept := advanced_kept h.kept
  rooted := fun a ha => by
    rcases List.mem_append.mp ha with ha | ha
    · exact (ready_imports (advanced_kept h.kept) (h.kept.owners item hi) h.main).rooted a ha
    · exact (ready_libraries (advanced_kept h.kept)).rooted a ha
  main := fun _ _ _ => h.main

/-- One step of the walk: it is over, or it takes the next item off, which is loaded if its file can be read. -/
inductive Taken (P : Program) (build : Build) (b b' : Builder) : Prop
  | ended (hi : b.workItems[b.nextWorkIndex]? = none) (hb : b' = b)
  | unread {item : WorkItem} (hi : b.workItems[b.nextWorkIndex]? = some item) (hf : P.readText item.file = none) (hb : b' = b.advanced)
  | read {item : WorkItem} {file : ParsedFile} (hi : b.workItems[b.nextWorkIndex]? = some item) (hf : P.readText item.file = some file)
      (hw : b'.workItems = (b.advanced.performAll P (fileAsks item file)).workItems) (hn : b'.nextWorkIndex = b.nextWorkIndex + 1)
      (hl : b'.loadedModules = b.loadedModules ++ [⟨item,(b.advanced.resolveImports P item file.imports).1⟩])
      (hg : Going P build b')

theorem step_taken (h : Going P build b) : Taken P build b (step P b) := by
  unfold step
  split
  · rename_i hi
    exact .ended hi rfl
  · rename_i item hi
    dsimp only
    split
    · rename_i hf
      exact .unread hi hf rfl
    · rename_i file hf
      have hitem := List.mem_of_getElem? hi
      have hready := (h.ready hitem : Ready P build b.advanced (fileAsks item file))
      have hperform : file.libraries.foldl (enqueueLibrary P) (b.advanced.resolveImports P item file.imports).2 =
          b.advanced.performAll P (fileAsks item file) := by
        rw [libraries_perform,resolveImports_perform,← performAll_append,fileAsks]
      obtain ⟨hk,hbeside,hmore⟩ := hready.all
      have hprocess : b.advanced.process P item file = { b.advanced.performAll P (fileAsks item file) with
          loadedModules := b.loadedModules ++ [⟨item,(b.advanced.resolveImports P item file.imports).1⟩] } := by
        unfold process
        dsimp only
        rw [hperform,hbeside.loaded]
        rfl
      change Taken P build b (b.advanced.process P item file)
      rw [hprocess]
      exact .read hi hf rfl hbeside.next rfl ⟨{ hk with },fun hne => queuedPaths_mono hmore (h.main hne)⟩

theorem walk_going (P : Program) (build : Build) (n : ℕ) : Going P build (walk P build n) := by
  induction n with
  | zero => exact ⟨start_kept,start_main⟩
  | succ n ih =>
    rw [walk_succ]
    cases step_taken ih with
    | ended _ hb =>
      rw [hb]
      exact ih
    | unread _ _ hb =>
      rw [hb]
      exact ⟨advanced_kept ih.kept,ih.main⟩
    | read _ _ _ _ _ hg => exact hg

theorem walk_taken (P : Program) (build : Build) (n : ℕ) : Taken P build (walk P build n) (walk P build (n + 1)) := walk_succ ▸ step_taken (walk_going ..)

theorem walk_items (P : Program) (build : Build) (n : ℕ) : (walk P build n).workItems <+: (walk P build (n + 1)).workItems := by
  cases walk_taken P build n with
  | ended _ hb => exact hb ▸ List.prefix_rfl
  | unread _ _ hb => exact hb ▸ List.prefix_rfl
  | read hi _ hw _ _ _ => exact hw ▸ ((walk_going ..).ready (List.mem_of_getElem? hi)).all.2.2

theorem walk_mono (P : Program) (build : Build) (h : n ≤ k) : (walk P build n).workItems <+: (walk P build k).workItems := by
  induction h with
  | refl => exact List.prefix_rfl
  | step _ ih => exact ih.trans (walk_items ..)

/-! ### Turns -/

theorem at_of_prefix {xs ys : List WorkItem} (h : xs <+: ys) (hi : xs[i]? = some q) : ys[i]? = some q := by
  obtain ⟨zs,rfl⟩ := h
  rw [List.getElem?_append_left (List.getElem?_eq_some_iff.mp hi).1,hi]

theorem walk_over (h : (walk P build n).workItems[(walk P build n).nextWorkIndex]? = none) (hk : n ≤ k) : walk P build k = walk P build n := by
  induction hk with
  | refl => rfl
  | @step k _ ih =>
    cases walk_taken P build k with
    | ended _ hb => exact hb.trans ih
    | unread hi _ _ =>
      rw [ih,h] at hi
      cases hi
    | read hi _ _ _ _ _ =>
      rw [ih,h] at hi
      cases hi

theorem walk_turn (h : (walk P build n).workItems[i]? = some q) :
    (walk P build i).nextWorkIndex = i ∧ (walk P build i).workItems[i]? = some q := by
  have hthere : ∀ j ≤ i, (walk P build j).nextWorkIndex = j → ∃ r, (walk P build j).workItems[j]? = some r := by
    intro j hj hnext
    by_contra hnone
    have hover : (walk P build j).workItems[(walk P build j).nextWorkIndex]? = none := by
      rw [hnext]
      exact Option.eq_none_iff_forall_ne_some.mpr fun r hr => hnone ⟨r,hr⟩
    have hlength := List.getElem?_eq_none_iff.mp hover
    rw [hnext] at hlength
    have hi : i < (walk P build n).workItems.length := (List.getElem?_eq_some_iff.mp h).1
    rcases Nat.le_total j n with hjn | hnj
    · rw [walk_over hover hjn] at hi
      omega
    · exact absurd (walk_mono P build hnj).length_le (by omega)
  have hnext : ∀ j ≤ i, (walk P build j).nextWorkIndex = j := by
    intro j
    induction j with
    | zero => exact fun _ => start_beside.1
    | succ j ih =>
      intro hj
      have hn := ih (by omega)
      obtain ⟨r,hr⟩ := hthere j (by omega) hn
      cases walk_taken P build j with
      | ended hi _ => exact absurd (hn ▸ hi) (by rw [hr]; nofun)
      | unread _ _ hb => rw [hb,Builder.advanced,hn]
      | read _ _ _ hnext _ _ => rw [hnext,hn]
  refine ⟨hnext i (Nat.le_refl i),?_⟩
  obtain ⟨r,hr⟩ := hthere i (Nat.le_refl i) (hnext i (Nat.le_refl i))
  rcases Nat.le_total i n with hin | hni
  · have hsame := at_of_prefix (walk_mono P build hin) hr
    rw [hr,← hsame,h]
  · exact at_of_prefix (walk_mono P build hni) h

end Ens.Graph
