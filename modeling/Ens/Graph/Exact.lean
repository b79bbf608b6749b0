import Ens.Graph.Right

/-! # When a graph is right

Both directions go through the asks of a walk: asks that meet the condition are answered one after the other, and in a walk that
keeps its promises no file is queued twice, so each of its asks met the condition when it was made.
-/
namespace Ens.Graph
open Builder
variable {P : Program} {build : Build} {b b' : Builder} {n k i : ℕ} {q item : WorkItem} {file : ParsedFile} {m : Module} {p : Text × Text}

/-! ### What is loaded -/

theorem loaded_items : (walk P build n).loadedModules.map Module.item =
    ((walk P build n).workItems.take (walk P build n).nextWorkIndex).filter fun q => (P.readText q.file).isSome := by
  induction n with
  | zero =>
    change (start P build).loadedModules.map Module.item = _
    rw [start_beside.2,show (walk P build 0).nextWorkIndex = 0 from start_beside.1]
    rfl
  | succ n ih =>
    cases walk_taken P build n with
    | ended _ hb => rw [hb,ih]
    | unread hi hf hb =>
      rw [hb]
      change (walk P build n).loadedModules.map Module.item = ((walk P build n).workItems.take ((walk P build n).nextWorkIndex + 1)).filter _
      rw [ih,List.take_add_one,hi,List.filter_append]
      simp [hf]
    | read hi hf hw hn hl _ =>
      have hmore := walk_items P build n
      have hi' := at_of_prefix hmore hi
      have hlen := (List.getElem?_eq_some_iff.mp hi).1
      rw [hl,List.map_append,ih,hn,List.take_add_one,hi',List.filter_append]
      obtain ⟨more,hmore⟩ := hmore
      rw [← hmore,List.take_append_of_le_length (Nat.le_of_lt hlen)]
      simp [hf]

theorem loaded_turn (h : m ∈ (walk P build n).loadedModules) : ∃ k < n, ∃ file,
    (walk P build k).workItems[(walk P build k).nextWorkIndex]? = some m.item ∧ P.readText m.item.file = some file ∧
      m.declarationTargets = ((walk P build k).advanced.resolveImports P m.item file.imports).1 := by
  induction n with
  | zero =>
    rw [show (walk P build 0).loadedModules = [] from start_beside.2] at h
    cases h
  | succ n ih =>
    have hcases : m ∈ (walk P build n).loadedModules ∨ ∃ item file, (walk P build n).workItems[(walk P build n).nextWorkIndex]? = some item ∧
        P.readText item.file = some file ∧ m = ⟨item,((walk P build n).advanced.resolveImports P item file.imports).1⟩ := by
      cases walk_taken P build n with
      | ended _ hb => exact .inl (hb ▸ h)
      | unread _ _ hb =>
        rw [hb] at h
        exact .inl h
      | read hi hf _ _ hl _ =>
        rw [hl] at h
        exact (List.mem_append.mp h).imp_right fun h => ⟨_,_,hi,hf,List.mem_singleton.mp h⟩
    rcases hcases with h | ⟨item,file,hi,hf,rfl⟩
    · obtain ⟨k,hk,hrest⟩ := ih h
      exact ⟨k,Nat.lt_succ_of_lt hk,hrest⟩
    · exact ⟨n,Nat.lt_succ_self n,file,hi,hf,rfl⟩

theorem turn_loaded (hi : (walk P build k).workItems[(walk P build k).nextWorkIndex]? = some item) (hf : P.readText item.file = some file) :
    ⟨item,((walk P build k).advanced.resolveImports P item file.imports).1⟩ ∈ (walk P build (k + 1)).loadedModules ∧
      (walk P build (k + 1)).workItems = ((walk P build k).advanced.performAll P (fileAsks item file)).workItems := by
  cases walk_taken P build k with
  | ended hi' _ =>
    rw [hi] at hi'
    cases hi'
  | unread hi' hf' _ =>
    rw [hi] at hi'
    cases hi'
    rw [hf] at hf'
    cases hf'
  | read hi' hf' hw _ hl _ =>
    rw [hi] at hi'
    cases hi'
    rw [hf] at hf'
    cases hf'
    exact ⟨hl ▸ List.mem_append_right _ (List.mem_singleton_self _),hw⟩

theorem queued_loaded (hq : q ∈ (walk P build n).workItems) (hf : P.readText q.file = some file) :
    ∃ k, (walk P build k).workItems[(walk P build k).nextWorkIndex]? = some q ∧
      ⟨q,((walk P build k).advanced.resolveImports P q file.imports).1⟩ ∈ (walk P build (k + 1)).loadedModules := by
  obtain ⟨i,hi⟩ := List.getElem?_of_mem hq
  obtain ⟨hnext,hi⟩ := walk_turn hi
  have hturn : (walk P build i).workItems[(walk P build i).nextWorkIndex]? = some q := by rw [hnext,hi]
  exact ⟨i,hturn,(turn_loaded hturn hf).1⟩

/-! ### The asks of a loaded file -/

theorem asks_answered (hi : item ∈ (walk P build k).workItems) :
    AnsweredAll P build (walk P build k).advanced b' (fileAsks item file) ↔
      (∀ path c, (path,some c) ∈ ((walk P build k).advanced.resolveImports P item file.imports).1 →
        ∃ p, P.named build item.owner.folder path = some p ∧ Settled b' c p) ∧
      ∀ l ∈ file.libraries, P.present (P.libraryPlace l).2 → Settled b' l (P.libraryPlace l) := by
  have hgo := walk_going P build k
  have hr := hgo.kept.owners item hi
  rw [fileAsks,answeredAll_append,answeredAll_libraries,
    answeredAll_imports (ready_imports (advanced_kept hgo.kept) hr hgo.main) hr]

theorem resolveImports_each {paths : List ImportPath} {path : ImportPath} (h : Ready P build b (paths.map (.imported item)))
    (hr : item.owner.Rooted P) (hp : path ∈ paths) : ∃ target, (path,target) ∈ (b.resolveImports P item paths).1 ∧
      (target = none → ∀ p, P.named build item.owner.folder path = some p → P.present p.2 = false) := by
  induction paths generalizing b with
  | nil => cases hp
  | cons d paths ih =>
    rw [resolveImports_cons]
    rcases List.mem_cons.mp hp with rfl | hp
    · exact ⟨_,List.mem_cons_self,fun hnone p hn => resolveImport_none h.kept hr hnone hn⟩
    · obtain ⟨target,ht,hnone⟩ := ih h.next hp
      exact ⟨target,List.mem_cons_of_mem _ ht,hnone⟩

/-! ### A walk whose asks meet the condition -/

theorem Unambiguous.start (h : Unambiguous P build) : Separate P (start P build) ∧
    AnsweredAll P build (initial P build) (start P build) ((implicitImportPaths ++ bindingModulePaths).map .library) ∧
      AnsweredAll P build (library P build).2 (start P build) ((seedItems P (library P build).1 build).map .seed) := by
  obtain ⟨hs,ha⟩ := h.implicit.answered (implicit_ready ..) List.Pairwise.nil
  have hs' : Separate P (library P build).2 := by rwa [Separate,library_items]
  obtain ⟨hs'',ha'⟩ := h.seeds.answered (seeds_ready ..) hs'
  rw [← start_eq] at hs'' ha'
  refine ⟨hs'',ha.mono ?_,ha'⟩
  rw [← library_items,start_eq]
  exact (seeds_ready ..).all.2.2

theorem Unambiguous.walk (h : Unambiguous P build) : Separate P (walk P build n) := by
  induction n with
  | zero => exact h.start.1
  | succ n ih =>
    cases walk_taken P build n with
    | ended _ hb => exact hb ▸ ih
    | unread _ _ hb =>
      rw [hb]
      exact ih
    | read hi hf hw _ _ _ =>
      rw [Separate,hw]
      exact ((h.files n _ _ hi hf).answered ((walk_going ..).ready (List.mem_of_getElem? hi)) ih).1

theorem Unambiguous.asks (h : Unambiguous P build) (hi : (Builder.walk P build k).workItems[(Builder.walk P build k).nextWorkIndex]? = some item)
    (hf : P.readText item.file = some file) :
    AnsweredAll P build (Builder.walk P build k).advanced (Builder.walk P build (k + 1)) (fileAsks item file) := by
  have ha := ((h.files k _ _ hi hf).answered ((walk_going ..).ready (List.mem_of_getElem? hi)) h.walk).2
  exact ha.mono ((turn_loaded hi hf).2 ▸ List.prefix_rfl)

theorem answered_start : (AnsweredAll P build (initial P build) (start P build) ((implicitImportPaths ++ bindingModulePaths).map .library) ∧
    AnsweredAll P build (library P build).2 (start P build) ((seedItems P (library P build).1 build).map .seed)) ↔
      (∀ l ∈ implicitImportPaths ++ bindingModulePaths, P.present (P.libraryPlace l).2 → Settled (start P build) l (P.libraryPlace l)) ∧
        ∀ r ∈ P.roots build, Settled (start P build) r.1 r.2 := by
  rw [answeredAll_libraries,answeredAll_seeds,← seedItems_roots,List.forall_mem_map]

theorem Unambiguous.loads (h : Unambiguous P build) : Loads P build := by
  obtain ⟨hs,hanswered⟩ := h.start
  obtain ⟨himplicit,hroots⟩ := answered_start.mp hanswered
  have himports : ∀ n, ∀ m ∈ (Builder.walk P build n).loadedModules, ∀ path c, (path,some c) ∈ m.declarationTargets →
      ∃ p, P.named build m.item.owner.folder path = some p ∧ Settled (Builder.walk P build n) c p := by
    intro n m hm path c ht
    obtain ⟨k,hk,file,hi,hf,htargets⟩ := loaded_turn hm
    obtain ⟨p,hp,hs⟩ := ((asks_answered (List.mem_of_getElem? hi)).mp (h.asks hi hf)).1 path c (htargets ▸ ht)
    exact ⟨p,hp,hs.mono (walk_mono _ _ hk)⟩
  have hneeds : ∀ n, ∀ m ∈ (Builder.walk P build n).loadedModules, ∀ file, P.readText m.item.file = some file → ∀ l ∈ file.libraries,
      P.present (P.libraryPlace l).2 → Settled (Builder.walk P build n) l (P.libraryPlace l) := by
    intro n m hm file hf l hl hp
    obtain ⟨k,hk,file',hi,hf',-⟩ := loaded_turn hm
    cases hf.symm.trans hf'
    exact (((asks_answered (List.mem_of_getElem? hi)).mp (h.asks hi hf)).2 l hl hp).mono (walk_mono _ _ hk)
  have hqueued : ∀ p, P.Reached build p → ∃ n, ∃ q ∈ (Builder.walk P build n).workItems, q.place = p := by
    intro p hp
    induction hp with
    | root hr =>
      obtain ⟨q,hq,-,hqp⟩ := hroots _ hr
      exact ⟨0,q,hq,hqp⟩
    | implicit hl hpresent =>
      obtain ⟨q,hq,-,hqp⟩ := himplicit _ hl hpresent
      exact ⟨0,q,hq,hqp⟩
    | @imported p r file path _ hf hpath hn hr ih =>
      obtain ⟨n,q,hq,rfl⟩ := ih
      obtain ⟨k,hi,hloaded⟩ := queued_loaded hq hf
      have hgo := walk_going P build k
      have hrooted := hgo.kept.owners q (List.mem_of_getElem? hi)
      obtain ⟨target,ht,hnone⟩ := resolveImports_each (ready_imports (advanced_kept hgo.kept) hrooted hgo.main) hrooted hpath
      cases target with
      | none => exact absurd hr (Bool.eq_false_iff.mp (hnone rfl r hn))
      | some c =>
        obtain ⟨r',hr',q',hq',-,hqr⟩ := himports _ _ hloaded path c ht
        exact ⟨k + 1,q',hq',hqr.trans (Option.some.inj (hr'.symm.trans hn))⟩
    | @needed p file l _ hf hl hpresent ih =>
      obtain ⟨n,q,hq,rfl⟩ := ih
      obtain ⟨k,hi,hloaded⟩ := queued_loaded hq hf
      obtain ⟨q',hq',-,hqp⟩ := hneeds _ _ hloaded file hf l hl hpresent
      exact ⟨k + 1,q',hq',hqp⟩
  refine ⟨hroots,himplicit,himports,hneeds,fun n q hq r hr hc => ?_,fun n => ?_,fun p hp hread => ?_⟩
  · rw [List.inj_on_of_nodup_map (walk_going P build n).kept.nodup hq hr hc]
  · change ((Builder.walk P build n).loadedModules.map (WorkItem.file ∘ Module.item)).Nodup
    rw [← List.map_map,loaded_items]
    refine List.pairwise_map.mpr ((List.pairwise_filter).mpr ((h.walk.sublist (List.take_sublist ..)).imp ?_))
    exact fun hapart hread _ => hapart hread
  · obtain ⟨n,q,hq,rfl⟩ := hqueued p hp
    obtain ⟨file,hf⟩ := Option.isSome_iff_exists.mp hread
    obtain ⟨k,-,hloaded⟩ := queued_loaded hq hf
    exact ⟨k + 1,_,hloaded,rfl⟩

/-! ### A walk that keeps its promises -/

theorem turn_next (hi : (walk P build k).workItems[(walk P build k).nextWorkIndex]? = some item) :
    (walk P build (k + 1)).nextWorkIndex = (walk P build k).nextWorkIndex + 1 := by
  cases walk_taken P build k with
  | ended hi' _ =>
    rw [hi] at hi'
    cases hi'
  | unread _ _ hb => rw [hb,Builder.advanced]
  | read _ _ _ hn _ _ => exact hn

theorem Loads.separate (h : Loads P build) : Separate P (walk P build n) := by
  refine List.pairwise_iff_getElem.mpr fun i j hi hj hij hread hsame => ?_
  obtain ⟨hnext,hjturn⟩ := walk_turn (List.getElem?_eq_some_iff.mpr ⟨hj,rfl⟩)
  have hturn : (walk P build j).workItems[(walk P build j).nextWorkIndex]? = some (walk P build n).workItems[j] := by rw [hnext,hjturn]
  have hlast : (walk P build (j + 1)).nextWorkIndex = j + 1 := by rw [turn_next hturn,hnext]
  have hlater : ∀ l (hl : l < (walk P build n).workItems.length), l ≤ j →
      (walk P build (j + 1)).workItems[l]? = some (walk P build n).workItems[l] := fun l hl hlj =>
    at_of_prefix (walk_mono _ _ (Nat.le_succ_of_le hlj)) (walk_turn (List.getElem?_eq_some_iff.mpr ⟨hl,rfl⟩)).2
  have honce : ((walk P build (j + 1)).workItems.take (j + 1)).Pairwise fun q r =>
      (P.readText q.file).isSome → (P.readText r.file).isSome → q.file ≠ r.file := by
    have hfiles := h.once (j + 1)
    change ((walk P build (j + 1)).loadedModules.map (WorkItem.file ∘ Module.item)).Nodup at hfiles
    rw [← List.map_map,loaded_items,hlast] at hfiles
    exact List.pairwise_filter.mp (List.pairwise_map.mp hfiles)
  obtain ⟨hli,hgi⟩ := List.getElem?_eq_some_iff.mp (hlater i hi (Nat.le_of_lt hij))
  obtain ⟨hlj,hgj⟩ := List.getElem?_eq_some_iff.mp (hlater j hj (Nat.le_refl j))
  have hpair := List.pairwise_iff_getElem.mp honce i j (by rw [List.length_take]; omega) (by rw [List.length_take]; omega) hij
  rw [List.getElem_take,List.getElem_take,hgi,hgj] at hpair
  exact hpair hread (hsame ▸ hread) hsame

/-- Every import of every module gets the file its own rules name, and every file they reach is loaded once, exactly when each
canonical path the walk spells is queued for no other file and each file under no other path. -/
theorem loads_iff : Loads P build ↔ Unambiguous P build := by
  refine ⟨fun h => ?_,Unambiguous.loads⟩
  obtain ⟨himplicit,hseeds⟩ := answered_start.mpr ⟨h.implicit,h.roots⟩
  have hseparate : Separate P (start P build) := h.separate (n := 0)
  refine ⟨himplicit.meets (implicit_ready ..) start_kept ?_ hseparate,hseeds.meets (seeds_ready ..) start_kept ?_ hseparate,fun n item file hi hf => ?_⟩
  · rw [← library_items,start_eq]
    exact (seeds_ready ..).all.2.2
  · exact start_eq ▸ List.prefix_rfl
  · obtain ⟨hloaded,hitems⟩ := turn_loaded hi hf
    have hmem := List.mem_of_getElem? hi
    have hanswered : AnsweredAll P build (walk P build n).advanced (walk P build (n + 1)) (fileAsks item file) :=
      (asks_answered hmem).mpr ⟨h.imports _ _ hloaded,h.needs _ _ hloaded file hf⟩
    exact hanswered.meets ((walk_going ..).ready hmem) (walk_going ..).kept (hitems ▸ List.prefix_rfl) h.separate

local instance lawfulFile : LawfulBEq Text := inferInstance

/-- A program in `r` with a module `a.b` of its own, which depends on a package `a` in `p` with a module `b`, and imports both. -/
def twice : Program where
  present f := decide (f ∈ [['r','/','a','/','b','.','e','n','s'],['p','/','s','r','c','/','b','.','e','n','s']])
  readText f :=
    if f = ['r','/','m','.','e','n','s'] then some ⟨[⟨false,[['a'],['b']]⟩,⟨true,[['a'],['b']]⟩],false,false⟩
    else some ⟨[],false,false⟩
  dependencyFolders _ := [(['a'],['p'])]
  rootFolder := ['r']
  sourceRoot := ['r']
  testsRoot := none
  stdlib := ['l']

/-- Both imports come to the canonical path `a.b`, and the module of the package is never loaded. -/
theorem twice_mixed : ¬ Loads twice (.files [['m','.','e','n','s']]) := by
  intro h
  have hloaded : (⟨⟨⟨['r'],[]⟩,['r'],['m','.','e','n','s'],['m']⟩,
      [(⟨false,[['a'],['b']]⟩,some ['a','.','b']),(⟨true,[['a'],['b']]⟩,some ['a','.','b'])]⟩ : Module) ∈
        (walk twice (.files [['m','.','e','n','s']]) 1).loadedModules := by decide +kernel
  obtain ⟨p,hp,q,hq,hc,hplace⟩ := h.imports 1 _ hloaded ⟨true,[['a'],['b']]⟩ ['a','.','b'] (by simp)
  have hwrong : ∀ q ∈ (walk twice (.files [['m','.','e','n','s']]) 1).workItems, q.canonicalPath = ['a','.','b'] →
      twice.named (.files [['m','.','e','n','s']]) ['r'] ⟨true,[['a'],['b']]⟩ ≠ some q.place := by decide +kernel
  exact hwrong q hq hc (hp.trans (congrArg some hplace.symm))

end Ens.Graph
