import Ens.Packages.Hashing

/-! # Digests of trees

Two trees, in memory or in folders, feed the same bytes only if they hold the same files, and the digest is the same however the
files, or the entries of a directory, are listed.
-/
namespace Ens.Packages.Hashing
variable {P P' D : Type} [DecidableEq P] [DecidableEq P'] {fs : FileSystem P} {w w' : Walker P} {found texts : List Bytes} {fuel : ℕ}
  {files : List EmbeddedFile}

/-! ### Paths of a folder -/

/-- Names with no zero byte. -/
def Plain (path : List Bytes) : Prop := ∀ name ∈ path, 0 ∉ name

structure PlainWalk (w : Walker P) : Prop where
  levels : ∀ l ∈ w.levels, Plain l.1 ∧ Plain (l.2.map Entry.name)
  descent : ∀ path, w.descent = some path → Plain path

theorem plain_relativeTo {path : List Bytes} (h : Plain path) : 0 ∉ Reading.relativeTo path := by
  induction path with
  | nil => simp [Reading.relativeTo]
  | cons name path ih =>
    obtain ⟨hname,hpath⟩ := List.forall_mem_cons.mp h
    cases path with
    | nil => simpa [Reading.relativeTo] using hname
    | cons next path =>
      have hrest := ih hpath
      rw [Reading.relativeTo] at hrest ⊢
      rw [List.intercalate_cons_cons,List.mem_append,List.mem_append,not_or,not_or]
      exact ⟨⟨hname,by decide⟩,hrest⟩

omit [DecidableEq P] in
theorem listedUnder_plain {directory : List Bytes} {entries : List Entry} (h : fs.reading.listedUnder directory = some entries) :
    Plain (entries.map Entry.name) := by
  obtain ⟨listed,hl,rfl⟩ := Option.map_eq_some_iff.mp h
  intro name hname
  obtain ⟨e,he,rfl⟩ := List.mem_map.mp hname
  exact fs.noNul hl e ((List.perm_insertionSort ..).mem_iff.mp he)

theorem PlainWalk.enter {directory : List Bytes} (h : PlainWalk w) (hd : Plain directory)
    (he : fs.reading.enter w directory = some w') : PlainWalk w' := by
  rw [Reading.enter] at he
  obtain ⟨place,-,he⟩ := Option.bind_eq_some_iff.mp he
  split_ifs at he with hin
  · cases he
    exact h
  · obtain ⟨entries,hentries,he⟩ := Option.bind_eq_some_iff.mp he
    cases he
    exact ⟨List.forall_mem_cons.mpr ⟨⟨hd,listedUnder_plain hentries⟩,h.levels⟩,h.descent⟩

omit [DecidableEq P] in
theorem advance_plain {r : Reading P} {levels : List (List Bytes × List Entry)} (h : PlainWalk w)
    (hl : ∀ l ∈ levels, Plain l.1 ∧ Plain (l.2.map Entry.name)) :
    PlainWalk (r.advance w levels).2 ∧ ∀ e, (r.advance w levels).1 = some e → Plain e.1 := by
  induction levels with
  | nil => exact ⟨⟨fun _ hl => absurd hl List.not_mem_nil,h.descent⟩,fun _ he => by cases he⟩
  | cons level levels ih =>
    obtain ⟨⟨hdir,hnames⟩,hrest⟩ := List.forall_mem_cons.mp hl
    obtain ⟨directory,entries⟩ := level
    cases entries with
    | nil => exact ih hrest
    | cons child entries =>
      obtain ⟨hchild,hentries⟩ := List.forall_mem_cons.mp hnames
      have hpath : Plain (directory ++ [child.name]) :=
        List.forall_mem_append.mpr ⟨hdir,List.forall_mem_singleton.mpr hchild⟩
      refine ⟨⟨List.forall_mem_cons.mpr ⟨⟨hdir,hentries⟩,hrest⟩,fun path hp => ?_⟩,fun e he => ?_⟩
      · rw [Reading.advance] at hp
        dsimp only at hp
        split_ifs at hp
        cases hp
        exact hpath
      · cases he
        exact hpath

theorem next_plain {entry : Option (List Bytes × Entry)} (h : PlainWalk w) (hn : fs.reading.next w = some (entry,w')) :
    PlainWalk w' ∧ ∀ e, entry = some e → Plain e.1 := by
  obtain ⟨v,hv,hn⟩ := Option.bind_eq_some_iff.mp hn
  have hplain : PlainWalk v := by
    cases hd : w.descent with
    | none =>
      rw [hd] at hv
      cases hv
      exact h
    | some directory =>
      rw [hd,Option.elim_some] at hv
      have hcleared : PlainWalk { w with descent := none } := ⟨h.levels,fun _ hp => by cases hp⟩
      exact hcleared.enter (h.descent _ hd) hv
  have hadvance := advance_plain (r := fs.reading) hplain hplain.levels
  rw [Option.some.inj hn] at hadvance
  exact hadvance

theorem filesFound_plain (h : PlainWalk w) (hf : ∀ text ∈ found, 0 ∉ text) (ht : fs.reading.filesFound fuel w found = some texts) :
    ∀ text ∈ texts, 0 ∉ text := by
  induction fuel generalizing w found with
  | zero => cases ht
  | succ fuel ih =>
    rw [Reading.filesFound] at ht
    obtain ⟨⟨entry,w'⟩,hn,ht⟩ := Option.bind_eq_some_iff.mp ht
    obtain ⟨hw,he⟩ := next_plain h hn
    cases entry with
    | none =>
      cases ht
      exact fun text htext => hf text ((List.perm_insertionSort ..).mem_iff.mp htext)
    | some entry =>
      dsimp only at ht
      split_ifs at ht with hdir hgit
      · have hskipped : PlainWalk { w' with descent := none } := ⟨hw.levels,fun _ hp => by cases hp⟩
        exact ih hskipped hf ht
      · exact ih hw hf ht
      · exact ih hw (List.forall_mem_append.mpr ⟨hf,List.forall_mem_singleton.mpr (plain_relativeTo (he _ rfl))⟩) ht

/-! ### Files of a folder -/

def Reading.readAll (r : Reading P) : List Bytes → Option (List EmbeddedFile)
  | [] => some []
  | relative :: found => do
    let content ← r.readBytes relative
    let files ← readAll r found
    some (⟨relative,content⟩ :: files)

-- derives the equations once, for all the proofs below
attribute [local grind =] Reading.readAll

def Reading.filesOf (r : Reading P) (fuel : ℕ) : Option (List EmbeddedFile) := (r.filesUnder fuel).bind r.readAll

theorem feedTree_eq (r : Reading P) (update : D → Bytes → D) (digest : D) (fuel : ℕ) :
    r.feedTree update digest fuel = (r.filesOf fuel).map (feed update digest) := by
  rw [Reading.feedTree,Reading.filesOf]
  cases r.filesUnder fuel with
  | none => rfl
  | some found =>
    change found.foldlM _ digest = (r.readAll found).map _
    induction found generalizing digest with
    | nil => rfl
    | cons relative found ih =>
      rw [List.foldlM_cons,Reading.readAll]
      cases r.readBytes relative with
      | none => rfl
      | some content =>
        refine (ih _).trans ?_
        cases r.readAll found with
        | none => rfl
        | some files => rfl

omit [DecidableEq P] in
theorem readAll_paths {r : Reading P} (h : r.readAll found = some files) : files.map EmbeddedFile.path = found := by
  induction found generalizing files with
  | nil =>
    cases h
    rfl
  | cons relative found ih =>
    rw [Reading.readAll] at h
    obtain ⟨content,-,h⟩ := Option.bind_eq_some_iff.mp h
    obtain ⟨rest,hrest,h⟩ := Option.bind_eq_some_iff.mp h
    cases h
    rw [List.map_cons,ih hrest]

theorem filesOf_plain (h : fs.reading.filesOf fuel = some files) : ∀ f ∈ files, 0 ∉ f.path := by
  obtain ⟨found,hfound,hread⟩ := Option.bind_eq_some_iff.mp h
  have hstart : PlainWalk (⟨[],[],some []⟩ : Walker P) :=
    ⟨fun _ hl => absurd hl List.not_mem_nil,fun _ hp => by cases hp; exact fun _ hn => absurd hn List.not_mem_nil⟩
  have hplain := filesFound_plain hstart (fun _ ht => absurd ht List.not_mem_nil) hfound
  rw [← readAll_paths hread] at hplain
  exact fun f hf => hplain f.path (List.mem_map_of_mem hf)

/-! ### One digest for one tree -/

structure Tree where
  files : List EmbeddedFile
  distinct : (files.map EmbeddedFile.path).Nodup
  noNul : ∀ f ∈ files, 0 ∉ f.path

structure Relisted (fs fs' : FileSystem P) : Prop where
  listed : ∀ directory, Option.Rel List.Perm (fs.listed directory) (fs'.listed directory)
  realPath : fs.realPath = fs'.realPath
  isDirectory : fs.isDirectory = fs'.isDirectory
  readBytes : fs.readBytes = fs'.readBytes

omit [DecidableEq P] in
theorem Relisted.reading {fs' : FileSystem P} (h : Relisted fs fs') : fs.reading = fs'.reading := by
  have hlisted : fs.reading.listedUnder = fs'.reading.listedUnder := by
    funext directory
    have hrel := h.listed directory
    have hdistinct := @fs.distinct directory
    change (fs.listed directory).map _ = (fs'.listed directory).map _
    cases hs : fs.listed directory with
    | none =>
      cases hs' : fs'.listed directory with
      | none => rfl
      | some entries' =>
        rw [hs,hs'] at hrel
        cases hrel
    | some entries =>
      cases hs' : fs'.listed directory with
      | none =>
        rw [hs,hs'] at hrel
        cases hrel
      | some entries' =>
        rw [hs,hs'] at hrel
        cases hrel with
        | some hperm => rw [Option.map_some,Option.map_some,sort_names hperm (hdistinct hs)]
  calc fs.reading = ⟨fs.reading.listedUnder,fs.realPath,fs.isDirectory,fs.readBytes⟩ := rfl
    _ = ⟨fs'.reading.listedUnder,fs'.realPath,fs'.isDirectory,fs'.readBytes⟩ := by rw [hlisted,h.realPath,h.isDirectory,h.readBytes]
    _ = fs'.reading := rfl

theorem Tree.arranged_noNul (t : Tree) : ∀ f ∈ arranged t.files, 0 ∉ f.path := fun f hf =>
  t.noNul f ((arranged_perm t.distinct).mem_iff.mp hf)

theorem feedTree_stream (h : fs.reading.filesOf fuel = some files) : fs.reading.feedTree (· ++ ·) [] fuel = some (stream files) := by
  rw [feedTree_eq,h,Option.map_some,stream]

end Ens.Packages.Hashing
