import Ens.Graph.Asks
import Mathlib.Data.List.Pairwise
import Mathlib.Data.List.Nodup

/-! # Asks that are answered by their own rules

An ask is answered when the queue holds the place it means under the canonical path it spells. It is, and no file is queued twice,
exactly when that path was free, or queued for that place, at the time it was asked.
-/
namespace Ens.Graph.Builder
variable {P : Program} {build : Build} {b b' b'' : Builder} {a : Ask} {as : List Ask} {c : Text} {p : Text × Text}

/-- The queue holds the place under the canonical path. -/
def Settled (b : Builder) (c : Text) (p : Text × Text) : Prop := ∃ q ∈ b.workItems, q.canonicalPath = c ∧ q.place = p

def Apart (P : Program) (q r : WorkItem) : Prop := (P.readText q.file).isSome → q.file ≠ r.file

/-- No file that can be read is queued twice. -/
def Separate (P : Program) (b : Builder) : Prop := b.workItems.Pairwise (Apart P)

instance : Std.Symm (Apart P) where
  symm _ _ h hread heq := h (heq ▸ hread) heq.symm

/-- The canonical path is queued for no other place, and until it is queued the file is not queued under another path. -/
structure Clear (P : Program) (b : Builder) (c : Text) (p : Text × Text) : Prop where
  written : c ≠ []
  place : ∀ q ∈ b.workItems, q.canonicalPath = c → q.place = p
  file : c ∉ b.queuedPaths → (P.readText p.2).isSome → ∀ q ∈ b.workItems, q.file ≠ p.2

/-- The condition on one ask, over the state it is made in. -/
def Meets (P : Program) (build : Build) (b : Builder) (a : Ask) : Prop :=
  ∀ c m, b.demand P build a = some (c,m) → ∃ p, m = some p ∧ Clear P b c p

def Answered (P : Program) (build : Build) (b : Builder) (a : Ask) (b' : Builder) : Prop :=
  ∀ c m, b.demand P build a = some (c,m) → ∃ p, m = some p ∧ Settled b' c p

theorem Settled.mono (h : Settled b c p) (hi : b.workItems <+: b'.workItems) : Settled b' c p := by
  obtain ⟨q,hq,hqp⟩ := h
  exact ⟨q,hi.subset hq,hqp⟩

theorem Answered.mono (h : Answered P build b a b') (hi : b'.workItems <+: b''.workItems) : Answered P build b a b'' := by
  intro c m hd
  obtain ⟨p,hm,hs⟩ := h c m hd
  exact ⟨p,hm,hs.mono hi⟩

theorem Asked.items (h : Asked P build b a b') : b.workItems <+: b'.workItems := by
  cases h with
  | same hi _ => exact hi ▸ List.prefix_rfl
  | more hi _ _ _ => exact hi ▸ List.prefix_append ..

/-- An ask that meets the condition is answered at once, and no file comes to be queued twice. -/
theorem Meets.answered (h : Asked P build b a b') (hm : Meets P build b a) (hs : Separate P b) :
    Separate P b' ∧ Answered P build b a b' := by
  cases h with
  | same hi hd =>
    refine ⟨by rwa [Separate,hi],fun c m hc => ?_⟩
    obtain ⟨p,rfl,hclear⟩ := hm c m hc
    obtain ⟨q,hq,rfl⟩ := mem_queuedPaths.mp ((hd _ _ hc).resolve_left hclear.written)
    exact ⟨p,rfl,q,hi ▸ hq,rfl,hclear.place q hq rfl⟩
  | @more t hi hd hn hq =>
    obtain ⟨p,hp,hclear⟩ := hm _ _ hd
    cases hp
    refine ⟨?_,fun c m hc => ?_⟩
    · rw [Separate,hi]
      refine List.pairwise_append.mpr ⟨hs,List.pairwise_singleton ..,fun r hr s hs hread => ?_⟩
      rw [List.mem_singleton.mp hs]
      exact fun heq => hclear.file hq ((congrArg P.readText heq).symm ▸ hread) r hr heq
    · cases hd.symm.trans hc
      exact ⟨_,rfl,t,hi ▸ List.mem_append_right _ (List.mem_singleton_self t),rfl,rfl⟩

/-- An ask that a later queue answers, where no file is queued twice, met the condition. -/
theorem Answered.meets (hb : Kept P build b') (hi : b.workItems <+: b'.workItems) (hs : Separate P b')
    (h : Answered P build b a b') : Meets P build b a := by
  intro c m hd
  obtain ⟨p,rfl,q,hq,rfl,rfl⟩ := h c m hd
  refine ⟨_,rfl,hb.nonempty q hq,fun r hr hc => ?_,fun hc hread r hr hf => ?_⟩
  · rw [List.inj_on_of_nodup_map hb.nodup (hi.subset hr) hq hc]
  · have hne : r ≠ q := by
      rintro rfl
      exact hc (mem_queuedPaths.mpr ⟨r,hr,rfl⟩)
    exact hs.forall hq (hi.subset hr) hne.symm hread hf.symm

/-! ### Asks one after the other -/

def performAll (P : Program) (b : Builder) (as : List Ask) : Builder := as.foldl (perform P) b

def MeetsAll (P : Program) (build : Build) (b : Builder) : List Ask → Prop
  | [] => True
  | a :: as => Meets P build b a ∧ MeetsAll P build (b.perform P a) as

def AnsweredAll (P : Program) (build : Build) (b : Builder) (b' : Builder) : List Ask → Prop
  | [] => True
  | a :: as => Answered P build b a b' ∧ AnsweredAll P build (b.perform P a) b' as

structure Ready (P : Program) (build : Build) (b : Builder) (as : List Ask) : Prop where
  kept : Kept P build b
  rooted : ∀ a ∈ as, a.Rooted P
  main : ∀ a ∈ as, a.Imports → build.entryAlias ≠ [] → main ∈ b.queuedPaths

theorem Ready.asked (h : Ready P build b (a :: as)) : Asked P build b a (b.perform P a) :=
  (perform_spec h.kept (h.rooted a List.mem_cons_self) (h.main a List.mem_cons_self)).2.2

theorem queuedPaths_mono (hi : b.workItems <+: b'.workItems) (hc : c ∈ b.queuedPaths) : c ∈ b'.queuedPaths := (hi.map _).subset hc

theorem Ready.next (h : Ready P build b (a :: as)) : Ready P build (b.perform P a) as where
  kept := (perform_spec h.kept (h.rooted a List.mem_cons_self) (h.main a List.mem_cons_self)).1
  rooted := fun d hd => h.rooted d (List.mem_cons_of_mem a hd)
  main := fun d hd hi hne => queuedPaths_mono h.asked.items (h.main d (List.mem_cons_of_mem a hd) hi hne)

theorem Ready.all (h : Ready P build b as) :
    Kept P build (b.performAll P as) ∧ Beside b (b.performAll P as) ∧ b.workItems <+: (b.performAll P as).workItems := by
  induction as generalizing b with
  | nil => exact ⟨h.kept,⟨rfl,rfl⟩,List.prefix_rfl⟩
  | cons a as ih =>
    obtain ⟨hk,hbeside,hi⟩ := ih h.next
    have ha := (perform_spec h.kept (h.rooted a List.mem_cons_self) (h.main a List.mem_cons_self)).2.1
    exact ⟨hk,⟨hbeside.next.trans ha.next,hbeside.loaded.trans ha.loaded⟩,h.asked.items.trans hi⟩

theorem AnsweredAll.mono (h : AnsweredAll P build b b' as) (hi : b'.workItems <+: b''.workItems) : AnsweredAll P build b b'' as := by
  induction as generalizing b with
  | nil => trivial
  | cons a as ih => exact ⟨h.1.mono hi,ih h.2⟩

theorem MeetsAll.answered (h : Ready P build b as) (hm : MeetsAll P build b as) (hs : Separate P b) :
    Separate P (b.performAll P as) ∧ AnsweredAll P build b (b.performAll P as) as := by
  induction as generalizing b with
  | nil => exact ⟨hs,trivial⟩
  | cons a as ih =>
    obtain ⟨hs',ha⟩ := hm.1.answered h.asked hs
    obtain ⟨hs'',has⟩ := ih h.next hm.2 hs'
    exact ⟨hs'',ha.mono h.next.all.2.2,has⟩

theorem AnsweredAll.meets (h : Ready P build b as) (hb : Kept P build b') (hi : (b.performAll P as).workItems <+: b'.workItems)
    (hs : Separate P b') (ha : AnsweredAll P build b b' as) : MeetsAll P build b as := by
  induction as generalizing b with
  | nil => trivial
  | cons a as ih => exact ⟨ha.1.meets hb ((h.asked.items.trans h.next.all.2.2).trans hi) hs,ih h.next hi ha.2⟩

/-! ### The asks of a file -/

def fileAsks (item : WorkItem) (file : ParsedFile) : List Ask :=
  file.imports.map (.imported item) ++ file.libraries.map .library

theorem performAll_append {as' : List Ask} : b.performAll P (as ++ as') = (b.performAll P as).performAll P as' := List.foldl_append

theorem resolveImports_perform {item : WorkItem} {paths : List ImportPath} :
    (b.resolveImports P item paths).2 = b.performAll P (paths.map (.imported item)) := by
  induction paths generalizing b with
  | nil => rfl
  | cons path paths ih => exact ih

theorem resolveImports_cons {item : WorkItem} {path : ImportPath} {paths : List ImportPath} :
    (b.resolveImports P item (path :: paths)).1 =
      (path,(b.resolveImport P item path).1) :: ((b.resolveImport P item path).2.resolveImports P item paths).1 := rfl

theorem libraries_perform {modules : List Text} : modules.foldl (enqueueLibrary P) b = b.performAll P (modules.map .library) := by
  induction modules generalizing b with
  | nil => rfl
  | cons m modules ih => exact ih

theorem seeds_perform {items : List WorkItem} : items.foldl enqueue b = b.performAll P (items.map .seed) := by
  induction items generalizing b with
  | nil => rfl
  | cons t items ih => exact ih

theorem answeredAll_append {as' : List Ask} :
    AnsweredAll P build b b' (as ++ as') ↔ AnsweredAll P build b b' as ∧ AnsweredAll P build (b.performAll P as) b' as' := by
  induction as generalizing b with
  | nil => exact ⟨fun h => ⟨trivial,h⟩,And.right⟩
  | cons a as ih =>
    constructor
    · rintro ⟨ha,h⟩
      exact ⟨⟨ha,(ih.mp h).1⟩,(ih.mp h).2⟩
    · rintro ⟨⟨ha,h⟩,h'⟩
      exact ⟨ha,ih.mpr ⟨h,h'⟩⟩

/-- The imports of a file are answered when each target is queued for the place the import names. -/
theorem answeredAll_imports {item : WorkItem} {paths : List ImportPath} (h : Ready P build b (paths.map (.imported item)))
    (hr : item.owner.Rooted P) : AnsweredAll P build b b' (paths.map (.imported item)) ↔
      ∀ path c, (path,some c) ∈ (b.resolveImports P item paths).1 → ∃ p, P.named build item.owner.folder path = some p ∧ Settled b' c p := by
  induction paths generalizing b with
  | nil => exact ⟨fun _ _ _ h => (nomatch h),fun _ => trivial⟩
  | cons path paths ih =>
    have hone : Answered P build b (.imported item path) b' ↔
        ∀ c, (b.resolveImport P item path).1 = some c → ∃ p, P.named build item.owner.folder path = some p ∧ Settled b' c p := by
      unfold Answered
      rw [resolveImport_demand h.kept hr]
      constructor
      · intro ha c hc
        exact ha c _ (by rw [hc]; rfl)
      · intro ha c m hc
        obtain ⟨d,hd,hcm⟩ := Option.map_eq_some_iff.mp hc
        cases hcm
        exact ha c hd
    constructor
    · rintro ⟨ha,has⟩ q c hc
      rw [resolveImports_cons] at hc
      rcases List.mem_cons.mp hc with hc | hc
      · obtain ⟨rfl,hc⟩ := Prod.mk.inj hc
        exact hone.mp ha c hc.symm
      · exact (ih h.next).mp has q c hc
    · intro hall
      rw [resolveImports_cons] at hall
      refine ⟨hone.mpr fun c hc => hall path c ?_,(ih h.next).mpr fun q c hc => hall q c (List.mem_cons_of_mem _ hc)⟩
      exact List.mem_cons.mpr (.inl (by rw [hc]))

theorem answeredAll_libraries {modules : List Text} : AnsweredAll P build b b' (modules.map .library) ↔
    ∀ m ∈ modules, P.present (P.libraryPlace m).2 → Settled b' m (P.libraryPlace m) := by
  induction modules generalizing b with
  | nil => exact ⟨fun _ => nofun,fun _ => trivial⟩
  | cons m modules ih =>
    have hone : Answered P build b (.library m) b' ↔ (P.present (P.libraryPlace m).2 → Settled b' m (P.libraryPlace m)) := by
      constructor
      · intro ha hp
        obtain ⟨p,hp',hs⟩ := ha m (some (P.libraryPlace m)) (if_pos hp)
        cases hp'
        exact hs
      · intro ha c q hd
        rw [demand] at hd
        split_ifs at hd with hp
        cases hd
        exact ⟨_,rfl,ha hp⟩
    rw [List.map_cons,AnsweredAll,hone,ih,List.forall_mem_cons]

theorem answeredAll_seeds {items : List WorkItem} : AnsweredAll P build b b' (items.map .seed) ↔
    ∀ t ∈ items, Settled b' t.canonicalPath t.place := by
  induction items generalizing b with
  | nil => exact ⟨fun _ => nofun,fun _ => trivial⟩
  | cons t items ih =>
    have hone : Answered P build b (.seed t) b' ↔ Settled b' t.canonicalPath t.place := by
      constructor
      · intro ha
        obtain ⟨p,hp,hs⟩ := ha _ _ rfl
        cases hp
        exact hs
      · intro ha c q hd
        cases hd
        exact ⟨_,rfl,ha⟩
    rw [List.map_cons,AnsweredAll,hone,ih,List.forall_mem_cons]

end Ens.Graph.Builder
