import Mathlib.Data.List.Dedup
import Mathlib.Data.List.Lex
import Mathlib.Data.List.Sort
import Mathlib.Data.Nat.SuccPred
import Mathlib.Order.PiLex

/-! # What a build requires of other packages

A requirement names a package, a version and maybe a repository. Which version a build uses, and
what cannot be settled, is a function of all requirements gathered.
-/
namespace Ens.Packages

abbrev Str := List ℕ

/-! ### Versions -/

structure Version where
  parts : List ℕ
  written : Str
  deriving DecidableEq, Repr

def Version.major (v : Version) : ℕ := v.parts.headD 0

def allDigits (s : Str) : Bool := !s.isEmpty && s.all fun b => decide (48 ≤ b) && decide (b ≤ 57)

def component (s : Str) : Option ℕ :=
  let value := s.foldl (fun v b => v * 10 + (b - 48)) 0
  if allDigits s ∧ value < 2 ^ 63 then some value else none

def parsed (text : Str) : Option Version :=
  if text = [] then none else ((text.splitOn 46).mapM component).map fun parts => ⟨parts,text⟩

def compare (left right : Version) : ℤ :=
  match (List.range (max left.parts.length right.parts.length)).find? fun i =>
      left.parts.getD i 0 ≠ right.parts.getD i 0 with
  | some i => if left.parts.getD i 0 < right.parts.getD i 0 then -1 else 1
  | none => 0

def sameMajor (left right : Version) : Bool := left.major == right.major

def higher (left right : Version) : Version := if compare right left > 0 then right else left

/-! ### Requirements -/

structure Requirement where
  name : Str
  version : Version
  url : Str
  deriving DecidableEq, Repr

inductive Problem
  | twoRepositories (name : Str)
  | twoMajors (name : Str)
  | notAVersion (name : Str)
  | unusable (name : Str)
  | unsettled
  | lockChanges
  deriving DecidableEq, Repr

def names (gathered : List Requirement) : List Str := (gathered.map Requirement.name).dedup.insertionSort (· ≤ ·)

def forPackage (gathered : List Requirement) (name : Str) : List Requirement := gathered.filter fun r => r.name = name

def firstUrl : List Requirement → Str
  | [] => []
  | r :: rest => if r.url = [] then firstUrl rest else r.url

def agreedUrl (mine : List Requirement) : Option Str :=
  if mine.all fun r => r.url = [] ∨ r.url = firstUrl mine then some (firstUrl mine) else none

def spansMajors : List Requirement → Bool
  | [] => false
  | first :: rest => (first :: rest).any fun r => !sameMajor first.version r.version

def highest : List Requirement → Option Version
  | [] => none
  | first :: rest => some ((first :: rest).foldl (fun h r => higher h r.version) first.version)

structure Choice where
  name : Str
  url : Str
  version : Version
  deriving DecidableEq, Repr

def choose (gathered : List Requirement) (name : Str) : Option Choice :=
  match agreedUrl (forPackage gathered name),highest (forPackage gathered name) with
  | some url,some version => if url = [] then none else some ⟨name,url,version⟩
  | _,_ => none

def disagreements (gathered : List Requirement) (name : Str) : List Problem :=
  (if agreedUrl (forPackage gathered name) = none then [.twoRepositories name] else []) ++
    if spansMajors (forPackage gathered name) then [.twoMajors name] else []

def select (gathered : List Requirement) : List Choice × List Problem :=
  ((names gathered).filterMap (choose gathered),(names gathered).flatMap (disagreements gathered))

end Ens.Packages

/-! ## What versions are worth

A version is worth its components, where those nobody wrote count as zero. Comparing versions compares
what they are worth, and the highest of some requirements is worth the most of them.
-/
namespace Ens.Packages
variable {a b : Version} {q r : Requirement} {mine rest : List Requirement}

def weight (v : Version) : Lex (ℕ → ℕ) := toLex fun i => v.parts.getD i 0

theorem weight_lt : weight a < weight b ↔ ∃ i, (∀ j < i, a.parts.getD j 0 = b.parts.getD j 0) ∧ a.parts.getD i 0 < b.parts.getD i 0 :=
  Iff.rfl

theorem compare_cases (a b : Version) : weight a = weight b ∧ compare a b = 0 ∨ weight a < weight b ∧ compare a b = -1 ∨
    weight b < weight a ∧ compare a b = 1 := by
  unfold compare
  split
  · rename_i i hi
    obtain ⟨hne,-,hsame⟩ := List.find?_range_eq_some.mp hi
    have hsame (j : ℕ) (hj : j < i) : a.parts.getD j 0 = b.parts.getD j 0 := by simpa using hsame j hj
    have hne : a.parts.getD i 0 ≠ b.parts.getD i 0 := by simpa using hne
    rcases Nat.lt_or_gt_of_ne hne with hlt | hlt
    · exact .inr (.inl ⟨weight_lt.mpr ⟨i,hsame,hlt⟩,if_pos hlt⟩)
    · exact .inr (.inr ⟨weight_lt.mpr ⟨i,fun j hj => (hsame j hj).symm,hlt⟩,if_neg (Nat.lt_asymm hlt)⟩)
  · rename_i hnone
    refine .inl ⟨congrArg toLex (funext fun i => ?_),rfl⟩
    by_cases hi : i < max a.parts.length b.parts.length
    · simpa using List.find?_range_eq_none.mp hnone i hi
    · have ha : a.parts.length ≤ i := by omega
      have hb : b.parts.length ≤ i := by omega
      simp [ha,hb]

theorem compare_pos : 0 < compare a b ↔ weight b < weight a := by
  rcases compare_cases a b with ⟨hw,hc⟩ | ⟨hw,hc⟩ | ⟨hw,hc⟩
  · exact iff_of_false (by omega) (not_lt_of_ge hw.le)
  · exact iff_of_false (by omega) (not_lt_of_ge hw.le)
  · exact iff_of_true (by omega) hw

theorem compare_nonneg : 0 ≤ compare a b ↔ weight b ≤ weight a := by
  rcases compare_cases a b with ⟨hw,hc⟩ | ⟨hw,hc⟩ | ⟨hw,hc⟩
  · exact iff_of_true (by omega) hw.ge
  · exact iff_of_false (by omega) (not_le_of_gt hw)
  · exact iff_of_true (by omega) hw.le

theorem compare_nonpos : compare a b ≤ 0 ↔ weight a ≤ weight b := by
  rcases compare_cases a b with ⟨hw,hc⟩ | ⟨hw,hc⟩ | ⟨hw,hc⟩
  · exact iff_of_true (by omega) hw.le
  · exact iff_of_true (by omega) hw.le
  · exact iff_of_false (by omega) (not_le_of_gt hw)

theorem higher_left (h : weight b ≤ weight a) : higher a b = a := if_neg fun hc => (compare_pos.mp hc).not_ge h

theorem higher_right (h : weight a < weight b) : higher a b = b := if_pos (compare_pos.mpr h)

/-- The higher of two is one of them, and worth as much as either. -/
theorem higher_spec (a b : Version) : (higher a b = a ∨ higher a b = b) ∧ weight a ≤ weight (higher a b) ∧
    weight b ≤ weight (higher a b) := by
  rcases le_or_gt (weight b) (weight a) with h | h
  · rw [higher_left h]
    exact ⟨.inl rfl,le_rfl,h⟩
  · rw [higher_right h]
    exact ⟨.inr rfl,h.le,le_rfl⟩

/-! ### The highest requirement -/

theorem foldl_higher (v : Version) (mine : List Requirement) :
    (mine.foldl (fun h r => higher h r.version) v = v ∨ ∃ r ∈ mine, mine.foldl (fun h r => higher h r.version) v = r.version) ∧
      weight v ≤ weight (mine.foldl (fun h r => higher h r.version) v) ∧
      ∀ r ∈ mine, weight r.version ≤ weight (mine.foldl (fun h r => higher h r.version) v) := by
  induction mine generalizing v with
  | nil => exact ⟨.inl rfl,le_rfl,nofun⟩
  | cons q mine ih =>
    obtain ⟨hmem,hv,hall⟩ := ih (higher v q.version)
    obtain ⟨hor,hl,hr⟩ := higher_spec v q.version
    rw [List.foldl_cons]
    refine ⟨?_,hl.trans hv,?_⟩
    · rcases hmem with hmem | ⟨r,hr,hmem⟩
      · rw [hmem]
        exact hor.imp_right fun h => ⟨q,List.mem_cons_self ..,h⟩
      · exact .inr ⟨r,List.mem_cons_of_mem q hr,hmem⟩
    · intro r hmem
      rcases List.mem_cons.mp hmem with rfl | hmem
      · exact hr.trans hv
      · exact hall r hmem

/-- The highest version is that of a requirement, and no requirement is above it. -/
theorem highest_spec {v : Version} (h : highest mine = some v) :
    (∃ r ∈ mine, r.version = v) ∧ ∀ r ∈ mine, weight r.version ≤ weight v := by
  cases mine with
  | nil => cases h
  | cons q mine =>
    obtain rfl := Option.some.inj h
    obtain ⟨hmem,-,hall⟩ := foldl_higher q.version (q :: mine)
    refine ⟨?_,hall⟩
    rcases hmem with hmem | ⟨r,hr,hmem⟩
    · exact ⟨q,List.mem_cons_self ..,hmem.symm⟩
    · exact ⟨r,hr,hmem.symm⟩

theorem highest_some (h : mine ≠ []) : ∃ v, highest mine = some v := by
  cases mine with
  | nil => exact absurd rfl h
  | cons q mine => exact ⟨_,rfl⟩

theorem highest_first (h : ∀ r ∈ rest, weight r.version ≤ weight q.version) : highest (q :: rest) = some q.version := by
  refine congrArg some ?_
  rw [List.foldl_cons,higher_left le_rfl]
  induction rest with
  | nil => rfl
  | cons r rest ih =>
    rw [List.foldl_cons,higher_left (h r (List.mem_cons_self ..))]
    exact ih fun p hp => h p (List.mem_cons_of_mem r hp)

end Ens.Packages
