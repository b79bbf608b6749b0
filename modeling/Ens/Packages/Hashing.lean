import Ens.Packages.Sha256Digest
import Mathlib.Data.List.Induction
import Mathlib.Data.List.Lex
import Mathlib.Data.List.Sort
import Mathlib.Logic.Function.Basic

/-! # Digests of trees of files

Every file feeds its path, its length and its bytes, in the order of the paths. Paths hold no zero byte, so what was fed is read back in
one way only.
-/
set_option linter.all false
namespace Ens.Packages.Hashing
open SecureHash (Byte)

abbrev Bytes := List Byte

/-- Texts in ascending order by their bytes. -/
def Upto (s t : Bytes) : Prop := s.map BitVec.toNat ≤ t.map BitVec.toNat

instance : DecidableRel Upto := fun s t => inferInstanceAs (Decidable (s.map BitVec.toNat ≤ t.map BitVec.toNat))

def sort (paths : List Bytes) : List Bytes := paths.insertionSort Upto

/-! ### Feeding -/

def decimal (n : ℕ) : Bytes := (Nat.toDigits 10 n).map fun c => BitVec.ofNat 8 c.toNat

def separator : Bytes := [0]

structure EmbeddedFile where
  path : Bytes
  contents : Bytes

def contents (files : List EmbeddedFile) : Bytes → Option Bytes :=
  files.foldl (fun contents file => Function.update contents file.path (some file.contents)) fun _ => none

section
variable {D : Type} (update : D → Bytes → D)

def fed (digest : D) (relative content : Bytes) : D :=
  let digest := update digest relative
  let digest := update digest separator
  let digest := update digest (decimal content.length)
  let digest := update digest separator
  update digest content

def feedFiles (digest : D) (files : List EmbeddedFile) : D :=
  (sort (files.map EmbeddedFile.path)).foldl (fun digest relative => fed update digest relative ((contents files relative).getD [])) digest

end

def marker : Bytes := [115,104,97,50,53,54,58]

def written (digest : Sha256) : Bytes := marker ++ digest.hex

def ofFiles (files : List EmbeddedFile) : Bytes := written (feedFiles Sha256.update Sha256.new files)

/-! ### Folders -/

inductive EntryKind
  | file
  | directory
  | symlink
  | other
deriving DecidableEq

structure Entry where
  name : Bytes
  kind : EntryKind

/-- What a file system answers below a folder. A path is the names below the folder, a text is one with `/` between them. -/
structure FileSystem (P : Type) where
  listed : List Bytes → Option (List Entry)
  realPath : List Bytes → Option P
  isDirectory : List Bytes → Bool
  readBytes : Bytes → Option Bytes
  distinct : ∀ {directory entries}, listed directory = some entries → (entries.map Entry.name).Nodup
  noNul : ∀ {directory entries}, listed directory = some entries → ∀ e ∈ entries, 0 ∉ e.name

structure Reading (P : Type) where
  listedUnder : List Bytes → Option (List Entry)
  realPath : List Bytes → Option P
  isDirectory : List Bytes → Bool
  readBytes : Bytes → Option Bytes

def FileSystem.reading {P : Type} (fs : FileSystem P) : Reading P :=
  ⟨fun directory => (fs.listed directory).map (List.insertionSort fun a b => Upto a.name b.name),fs.realPath,fs.isDirectory,fs.readBytes⟩

/-- A walk under way: what is left of each directory entered, where it has been, and the directory it goes into next. -/
structure Walker (P : Type) where
  levels : List (List Bytes × List Entry)
  entered : List P
  descent : Option (List Bytes)

namespace Reading
variable {P : Type} [DecidableEq P] (r : Reading P)

def goesInto (path : List Bytes) (child : Entry) : Bool :=
  decide (child.kind = .directory) || decide (child.kind = .symlink) && r.isDirectory path

def enter (w : Walker P) (directory : List Bytes) : Option (Walker P) := do
  let place ← r.realPath directory
  if place ∈ w.entered then some w
  else
    let entries ← r.listedUnder directory
    some { w with entered := place :: w.entered, levels := (directory,entries) :: w.levels }

def advance (w : Walker P) : List (List Bytes × List Entry) → Option (List Bytes × Entry) × Walker P
  | [] => (none,{ w with levels := [] })
  | (_,[]) :: levels => advance w levels
  | (directory,child :: rest) :: levels =>
    let path := directory ++ [child.name]
    (some (path,child),
      { w with
        levels := (directory,rest) :: levels
        descent := if r.goesInto path child then some path else none })

def next (w : Walker P) : Option (Option (List Bytes × Entry) × Walker P) := do
  let w ← w.descent.elim (some w) (r.enter { w with descent := none })
  some (r.advance w w.levels)

def gitFolder : Bytes := [46,103,105,116]

def relativeTo (path : List Bytes) : Bytes := [47].intercalate path

def filesFound : ℕ → Walker P → List Bytes → Option (List Bytes)
  | 0, _, _ => none
  | fuel + 1, w, found => do
    let (entry,w) ← r.next w
    match entry with
    | none => some (sort found)
    | some (path,child) =>
      if r.goesInto path child then filesFound fuel (if child.name = gitFolder then { w with descent := none } else w) found
      else filesFound fuel w (found ++ [relativeTo path])

def filesUnder (fuel : ℕ) : Option (List Bytes) := r.filesFound fuel ⟨[],[],some []⟩ []

def feedTree {D : Type} (update : D → Bytes → D) (digest : D) (fuel : ℕ) : Option D := do
  let found ← r.filesUnder fuel
  found.foldlM (fun digest relative => do some (fed update digest relative (← r.readBytes relative))) digest

def ofTree (fuel : ℕ) : Option Bytes := (r.feedTree Sha256.update Sha256.new fuel).map written

end Reading

end Ens.Packages.Hashing

/-! ## Reading a tree back from what it feeds

A path ends at the first zero byte, a length at the next, and the length says where the contents end. The order in which files or
directories are listed is lost in the sort.
-/
namespace Ens.Packages.Hashing
open SecureHash (Byte)
variable {files files' : List EmbeddedFile} {f : EmbeddedFile} {path : Bytes}

/-! ### Order -/

instance : Std.Total Upto := ⟨fun s t => le_total (s.map BitVec.toNat) (t.map BitVec.toNat)⟩

instance : IsTrans Bytes Upto := ⟨fun _ _ _ => le_trans⟩

instance : Std.Antisymm Upto :=
  ⟨fun _ _ h h' => List.map_injective_iff.mpr (fun _ _ => BitVec.eq_of_toNat_eq) (le_antisymm h h')⟩

theorem sort_perm {s t : List Bytes} (h : s.Perm t) : sort s = sort t := by
  refine List.Perm.eq_of_pairwise' (List.pairwise_insertionSort ..) (List.pairwise_insertionSort ..) ?_
  exact (List.perm_insertionSort ..).trans (h.trans (List.perm_insertionSort ..).symm)

theorem sort_names {s t : List Entry} (h : s.Perm t) (hd : (s.map Entry.name).Nodup) :
    s.insertionSort (fun a b => Upto a.name b.name) = t.insertionSort fun a b => Upto a.name b.name := by
  have hs := List.perm_insertionSort (fun a b : Entry => Upto a.name b.name) s
  have ht := List.perm_insertionSort (fun a b : Entry => Upto a.name b.name) t
  have : Std.Total fun a b : Entry => Upto a.name b.name := ⟨fun a b => total_of Upto a.name b.name⟩
  have : IsTrans Entry fun a b => Upto a.name b.name := ⟨fun a b c => trans_of Upto (a := a.name) (b := b.name) (c := c.name)⟩
  refine List.Perm.eq_of_pairwise (fun a b ha hb hab hba => ?_) (List.pairwise_insertionSort ..) (List.pairwise_insertionSort ..)
    (hs.trans (h.trans ht.symm))
  exact List.inj_on_of_nodup_map hd (hs.mem_iff.mp ha) (h.mem_iff.mpr (ht.mem_iff.mp hb)) (antisymm_of Upto hab hba)

/-! ### Contents -/

theorem contents_concat : contents (files ++ [f]) = Function.update (contents files) f.path (some f.contents) := by
  rw [contents,contents,List.foldl_append]
  rfl

theorem contents_of_mem (hd : (files.map EmbeddedFile.path).Nodup) (hf : f ∈ files) : contents files f.path = some f.contents := by
  induction files using List.reverseRecOn with
  | nil => cases hf
  | append_singleton files g ih =>
    rw [List.map_append,List.nodup_append] at hd
    rw [contents_concat]
    rcases List.mem_append.mp hf with hin | hlast
    · have hne : f.path ≠ g.path := hd.2.2 _ (List.mem_map_of_mem hin) _ (by simp)
      rw [Function.update_of_ne hne,ih hd.1 hin]
    · obtain rfl := List.mem_singleton.mp hlast
      rw [Function.update_self]

def arranged (files : List EmbeddedFile) : List EmbeddedFile :=
  (sort (files.map EmbeddedFile.path)).map fun path => ⟨path,(contents files path).getD []⟩

theorem arranged_perm (hd : (files.map EmbeddedFile.path).Nodup) : (arranged files).Perm files := by
  have hperm : (sort (files.map EmbeddedFile.path)).Perm (files.map EmbeddedFile.path) := List.perm_insertionSort ..
  refine (hperm.map _).trans (List.Perm.of_eq ?_)
  rw [List.map_map]
  refine (List.map_congr_left fun f hf => ?_).trans (List.map_id files)
  rw [Function.comp_apply,contents_of_mem hd hf]
  rfl

theorem arranged_congr (h : files.Perm files') (hd : (files.map EmbeddedFile.path).Nodup) : arranged files = arranged files' := by
  have hd' : (files'.map EmbeddedFile.path).Nodup := (h.map _).nodup_iff.mp hd
  rw [arranged,arranged,sort_perm (h.map _)]
  refine List.map_congr_left fun path hpath => ?_
  obtain ⟨f,hf,rfl⟩ := List.mem_map.mp ((List.perm_insertionSort ..).mem_iff.mp hpath)
  rw [contents_of_mem hd' hf,contents_of_mem hd (h.mem_iff.mpr hf)]

/-! ### What is fed -/

section
variable {D : Type} {update : D → Bytes → D} {digest : D}

def feed (update : D → Bytes → D) (digest : D) (files : List EmbeddedFile) : D :=
  files.foldl (fun digest f => fed update digest f.path f.contents) digest

theorem feedFiles_eq (update : D → Bytes → D) (digest : D) (files : List EmbeddedFile) :
    feedFiles update digest files = feed update digest (arranged files) := by
  rw [feed,arranged,List.foldl_map,feedFiles]

end

def stream (files : List EmbeddedFile) : Bytes := feed (· ++ ·) [] files

def frame (f : EmbeddedFile) : Bytes := f.path ++ 0 :: (decimal f.contents.length ++ 0 :: f.contents)

theorem feed_append (files : List EmbeddedFile) (m : Bytes) : feed (· ++ ·) m files = m ++ files.flatMap frame := by
  induction files generalizing m with
  | nil => rw [feed,List.foldl_nil,List.flatMap_nil,List.append_nil]
  | cons f files ih =>
    have hfed : fed (· ++ ·) m f.path f.contents = m ++ frame f := by simp [fed,frame,separator]
    rw [feed,List.foldl_cons,hfed,← feed,ih,List.flatMap_cons,List.append_assoc]

theorem stream_eq (files : List EmbeddedFile) : stream files = files.flatMap frame := feed_append files []

theorem feed_fed {s : Sha256} {m : Bytes} (h : s.Fed m) (files : List EmbeddedFile) :
    (feed Sha256.update s files).Fed (feed (· ++ ·) m files) := by
  induction files generalizing s m with
  | nil => exact h
  | cons f files ih => exact ih (((((h.update _).update _).update _).update _).update _)

/-! ### Reading back -/

theorem cut_zero {a b x y : Bytes} (ha : 0 ∉ a) (hb : 0 ∉ b) (h : a ++ 0 :: x = b ++ 0 :: y) : a = b ∧ x = y := by
  rcases List.append_eq_append_iff.mp h with ⟨c,rfl,hc⟩ | ⟨c,rfl,hc⟩
  · cases c with
    | nil => exact ⟨(List.append_nil a).symm,(List.cons.inj hc).2⟩
    | cons z c => exact absurd (List.mem_append_right a (List.mem_cons.mpr (.inl (List.cons.inj hc).1))) hb
  · cases c with
    | nil => exact ⟨List.append_nil b,(List.cons.inj hc).2.symm⟩
    | cons z c => exact absurd (List.mem_append_right b (List.mem_cons.mpr (.inl (List.cons.inj hc).1))) ha

theorem digit_bounds {n : ℕ} {c : Char} (hc : c ∈ Nat.toDigits 10 n) : 48 ≤ c.toNat ∧ c.toNat ≤ 57 :=
  Char.isDigit_iff_toNat.mp (Nat.isDigit_of_mem_toDigits (by decide) (by decide) hc)

theorem decimal_read (n : ℕ) : Nat.ofDigitChars 10 ((decimal n).map fun b => Char.ofNat b.toNat) 0 = n := by
  have hread : (decimal n).map (fun b => Char.ofNat b.toNat) = Nat.toDigits 10 n := by
    rw [decimal,List.map_map]
    refine (List.map_congr_left fun c hc => ?_).trans (List.map_id _)
    have hbounds := digit_bounds hc
    rw [Function.comp_apply,BitVec.toNat_ofNat,Nat.mod_eq_of_lt (by omega),Char.ofNat_toNat]
    rfl
  rw [hread,Nat.ofDigitChars_ten_toDigits]

theorem zero_notMem_decimal (n : ℕ) : 0 ∉ decimal n := by
  intro h
  obtain ⟨c,hc,hzero⟩ := List.mem_map.mp h
  have hbounds := digit_bounds hc
  have hnat := congrArg BitVec.toNat hzero
  rw [BitVec.toNat_ofNat,Nat.mod_eq_of_lt (by omega)] at hnat
  change c.toNat = 0 at hnat
  omega

theorem decimal_injective {n n' : ℕ} (h : decimal n = decimal n') : n = n' := by
  rw [← decimal_read n,h,decimal_read]

/-- Files whose paths hold no zero byte are read back from what they feed. -/
theorem stream_injective (h : ∀ f ∈ files, 0 ∉ f.path) (h' : ∀ f ∈ files', 0 ∉ f.path) (hs : stream files = stream files') :
    files = files' := by
  rw [stream_eq,stream_eq] at hs
  induction files generalizing files' with
  | nil =>
    cases files' with
    | nil => rfl
    | cons f' files' => simp [frame] at hs
  | cons f files ih =>
    cases files' with
    | nil => simp [frame] at hs
    | cons f' files' =>
      obtain ⟨hf,hfiles⟩ := List.forall_mem_cons.mp h
      obtain ⟨hf',hfiles'⟩ := List.forall_mem_cons.mp h'
      simp only [List.flatMap_cons,frame,List.append_assoc,List.cons_append] at hs
      obtain ⟨hpath,hs⟩ := cut_zero hf hf' hs
      obtain ⟨hlen,hs⟩ := cut_zero (zero_notMem_decimal _) (zero_notMem_decimal _) hs
      obtain ⟨hcontents,hs⟩ := List.append_inj hs (decimal_injective hlen)
      have hff : f = f' := by
        cases f
        cases f'
        exact congrArg₂ EmbeddedFile.mk hpath hcontents
      rw [hff,ih hfiles hfiles' hs]

end Ens.Packages.Hashing
