import Ens.Logic.Long
import Ens.Text.Decode
import Ens.Text.DecodeSpec

/-! # Searching and cutting text

An occurrence of one text in another is looked for byte by byte. Occurrences are counted first, so that what is built from them is as wide as
it will be, and looked for again while it is filled.
-/
namespace Ens.Search
open Loop Decode

-- Offsets and lengths of texts in memory, and sums of two of them, are longs. The width of a result is computed before there is one, so
-- that it may be too large for a long and wrap around.

def newArray (width : ℤ) : Except Stop (List ℕ) := if width < 0 then .error .abort else .ok (List.replicate width.toNat 0)

def sliceUnchecked (raw : List ℕ) (start stop : ℤ) : Except Stop (List ℕ) :=
  if 0 ≤ start ∧ start ≤ stop ∧ stop ≤ raw.length then .ok ((raw.take stop.toNat).drop start.toNat) else .error .abort

/-! ### Occurrences -/

def matchesAt (raw : List ℕ) (i : ℕ) (part : List ℕ) : Except Stop Bool :=
  (List.range part.length).allM fun k => do .ok (decide ((← entry raw (i + k)) = (← entry part k)))

-- The loops over places go on by a byte at least in each round.
/-- One round of the count: an occurrence is gone over whole, so that the next one does not overlap it. -/
def countStep (raw needle : List ℕ) : ℕ × ℕ → Except Stop (Loop.Flow (ℕ × ℕ) ℕ)
  | (found,i) =>
    if i + needle.length ≤ raw.length then do
      if ← matchesAt raw i needle then .ok (.next (found + 1,i + needle.length)) else .ok (.next (found,i + 1))
    else .ok (.done found)

def countOf (raw needle : List ℕ) : Except Stop ℕ := loop .endless (countStep raw needle) (raw.length + 1) (0,0)

def indexStep (raw needle : List ℕ) (i : ℕ) : Except Stop (Loop.Flow ℕ ℤ) :=
  if i + needle.length ≤ raw.length then do
    if ← matchesAt raw i needle then .ok (.done (i : ℤ)) else .ok (.next (i + 1))
  else .ok (.done (-1 : ℤ))

/-- The offset of the first occurrence of a needle at or after an offset, or -1 when there is none. -/
def indexOf (raw needle : List ℕ) (start : ℤ) : Except Stop ℤ :=
  let start := if start < 0 then 0 else start.toNat
  if raw.length < start + needle.length then .ok (-1)
  else loop .endless (indexStep raw needle) (raw.length + 1) start

/-! ### Copies -/

def copyInto (built : List ℕ) (i : ℕ) (text : List ℕ) : Except Stop (List ℕ × ℕ) := do
  let built ← (List.range text.length).foldlM (fun built k => do put built (i + k) (← entry text k)) built
  .ok (built,i + text.length)

def joined (parts : List (List ℕ)) (separator : List ℕ) : Except Stop (List ℕ) :=
  match parts with
  | [] => .ok []
  | first :: rest => do
    let width := (first :: rest).foldl (fun width part => Long.wrap (width + part.length)) (Long.wrap (separator.length * rest.length))
    let built ← newArray width
    let (built,written) ← copyInto built 0 first
    let (built,_) ← rest.foldlM (fun (built,written) part => do
      let (built,written) ← copyInto built written separator
      copyInto built written part) (built,written)
    .ok built

def replaceStep (raw needle replacement : List ℕ) : List ℕ × ℕ × ℕ → Except Stop (Loop.Flow (List ℕ × ℕ × ℕ) (List ℕ))
  | (built,i,written) =>
    if i < raw.length then do
      let hit ← (if i + needle.length ≤ raw.length then matchesAt raw i needle else .ok false)
      if hit then do
        let (built,written) ← copyInto built written replacement
        .ok (.next (built,i + needle.length,written))
      else do
        let built ← put built written (← entry raw i)
        .ok (.next (built,i + 1,written + 1))
    else .ok (.done built)

def replace (raw needle replacement : List ℕ) : Except Stop (List ℕ) :=
  if needle.isEmpty then .ok raw
  else do
    let found ← countOf raw needle
    if found = 0 then .ok raw
    else do
      let width := Long.wrap (raw.length + Long.wrap (found * ((replacement.length : ℤ) - needle.length)))
      let built ← newArray width
      loop .endless (replaceStep raw needle replacement) (raw.length + 1) (built,0,0)

/-! ### Parts -/

structure PartBounds where
  starts : List ℤ
  ends : List ℤ

def partsOn (raw separator : List ℕ) : Except Stop PartBounds := do
  let count ← (if separator.isEmpty then .ok 0 else countOf raw separator)
  let none := List.replicate (count + 1) (0 : ℤ)
  let (starts,ends,i) ← (List.range count).foldlM (fun (starts,ends,i) part => do
    let found ← indexOf raw separator i
    .ok (← put starts part i,← put ends part found,found + separator.length)) (none,none,(0 : ℤ))
  .ok ⟨← put starts count i,← put ends count raw.length⟩

def split (raw separator : List ℕ) : Except Stop (List (List ℕ)) := do
  let found ← partsOn raw separator
  (List.range found.starts.length).mapM fun i => do sliceUnchecked raw (← entry found.starts i) (← entry found.ends i)

end Ens.Search

/-! ## Cuts

Text cut at the occurrences of a needle, taken from the left and never overlapping. Every loop over the occurrences goes through the same cut.
-/
namespace Ens.Search
open Loop Decode Utf8
variable {p r bs rest part : List ℕ} {parts : List (List ℕ)} {b j : ℕ}

inductive Cut (p : List ℕ) : List ℕ → List (List ℕ) → Prop
  | stop : Cut p [] [[]]
  | hit {rest : List ℕ} {parts : List (List ℕ)} : Cut p rest parts → Cut p (p ++ rest) ([] :: parts)
  | miss {b : ℕ} {rest part : List ℕ} {parts : List (List ℕ)} : ¬p <+: b :: rest → Cut p rest (part :: parts) →
      Cut p (b :: rest) ((b :: part) :: parts)

theorem Cut.ne_nil (h : Cut p bs parts) : parts ≠ [] := by
  cases h <;> exact List.cons_ne_nil _ _

theorem Cut.exists_cons (h : Cut p bs parts) : ∃ part rest, parts = part :: rest := List.exists_cons_of_ne_nil h.ne_nil

theorem exists_cut (hp : p ≠ []) (bs : List ℕ) : ∃ parts, Cut p bs parts := by
  generalize hn : bs.length = n
  induction n using Nat.strong_induction_on generalizing bs with
  | _ n ih =>
    cases bs with
    | nil => exact ⟨_,.stop⟩
    | cons b bs =>
      rw [List.length_cons] at hn
      by_cases hhit : p <+: b :: bs
      · obtain ⟨rest,hrest⟩ := hhit
        have hlen := congrArg List.length hrest
        rw [List.length_append,List.length_cons] at hlen
        have hpos := List.length_pos_iff.mpr hp
        obtain ⟨parts,hparts⟩ := ih rest.length (by omega) rest rfl
        rw [← hrest]
        exact ⟨_,.hit hparts⟩
      · obtain ⟨parts,hparts⟩ := ih bs.length (by omega) bs rfl
        obtain ⟨part,parts,rfl⟩ := hparts.exists_cons
        exact ⟨_,.miss hhit hparts⟩

theorem Cut.intercalate (h : Cut p bs parts) : p.intercalate parts = bs := by
  induction h with
  | stop => rfl
  | hit h ih => rw [List.intercalate_cons_of_ne_nil h.ne_nil,ih,List.nil_append]
  | miss _ _ ih => rw [List.intercalate_cons_cons_left,ih]

theorem Cut.short (h : Cut p bs parts) (hlen : bs.length < p.length) : parts = [bs] := by
  induction h with
  | stop => rfl
  | hit _ _ =>
    rw [List.length_append] at hlen
    omega
  | miss _ _ ih =>
    rw [List.length_cons] at hlen
    obtain ⟨rfl,rfl⟩ := List.cons_eq_cons.mp (ih (by omega))
    rfl

theorem Cut.last (h : Cut p bs [part]) : part = bs := by
  have hjoin := h.intercalate
  rwa [List.intercalate_singleton] at hjoin

/-- After a part that is not the last stands the needle, and what follows it is cut into the other parts. -/
theorem Cut.after {q : List ℕ} (h : Cut p bs (part :: q :: parts)) : ∃ rest, bs = part ++ (p ++ rest) ∧ Cut p rest (q :: parts) := by
  generalize hall : part :: q :: parts = all at h
  induction h generalizing part with
  | stop => cases hall
  | @hit rest parts' h _ =>
    cases hall
    exact ⟨rest,rfl,h⟩
  | miss _ _ ih =>
    cases hall
    obtain ⟨rest,hrest,hcut⟩ := ih rfl
    exact ⟨rest,by rw [hrest,List.cons_append],hcut⟩

/-- The first part stands at the start. -/
theorem Cut.prefix_head (h : Cut p bs (part :: parts)) : part <+: bs := by
  cases parts with
  | nil => exact h.last ▸ List.prefix_refl _
  | cons q parts =>
    obtain ⟨rest,hrest,-⟩ := h.after
    exact ⟨_,hrest.symm⟩

theorem Cut.not_infix (hp : p ≠ []) (h : Cut p bs parts) : ∀ part ∈ parts, ¬p <:+: part := by
  induction h with
  | stop =>
    intro part hpart hin
    rw [List.mem_singleton.mp hpart] at hin
    exact hp (List.infix_nil.mp hin)
  | hit _ ih => exact List.forall_mem_cons.mpr ⟨fun hin => hp (List.infix_nil.mp hin),ih⟩
  | @miss b rest part parts hmiss h ih =>
    obtain ⟨hpart,hparts⟩ := List.forall_mem_cons.mp ih
    refine List.forall_mem_cons.mpr ⟨fun hin => ?_,hparts⟩
    rcases List.infix_cons_iff.mp hin with hpre | hin
    · exact hmiss (hpre.trans ((List.prefix_cons_inj b).mpr h.prefix_head))
    · exact hpart hin

/-- An occurrence of the needle that starts in an occurrence taken. -/
def Taken (p : List ℕ) (parts : List (List ℕ)) (j : ℕ) : Prop :=
  ∃ front back, parts = front ++ back ∧ front ≠ [] ∧ back ≠ [] ∧ (p.intercalate front).length ≤ j ∧
    j < (p.intercalate front).length + p.length

/-- An occurrence of the needle is one taken or begins in one taken further left. -/
theorem Cut.taken (hp : p ≠ []) (h : Cut p bs parts) (hj : p <+: bs.drop j) : Taken p parts j := by
  induction h generalizing j with
  | stop =>
    rw [List.drop_nil] at hj
    exact absurd (List.prefix_nil.mp hj) hp
  | @hit rest parts h ih =>
    rcases Nat.lt_or_ge j p.length with hlt | hge
    · exact ⟨[[]],parts,rfl,List.cons_ne_nil _ _,h.ne_nil,Nat.zero_le _,by rw [List.intercalate_singleton]; simpa using hlt⟩
    · obtain ⟨k,rfl⟩ := Nat.exists_eq_add_of_le hge
      rw [List.drop_append,List.drop_eq_nil_of_le (by omega),List.nil_append,Nat.add_sub_cancel_left] at hj
      obtain ⟨front,back,rfl,hfront,hback,hle,hlt⟩ := ih hj
      refine ⟨[] :: front,back,rfl,List.cons_ne_nil _ _,hback,?_,?_⟩ <;>
        rw [List.intercalate_cons_of_ne_nil hfront,List.nil_append,List.length_append] <;> omega
  | @miss b rest part parts hmiss h ih =>
    cases j with
    | zero => exact absurd hj hmiss
    | succ j =>
      obtain ⟨front,back,hsplit,hfront,hback,hle,hlt⟩ := ih hj
      obtain ⟨q,front,rfl⟩ := List.exists_cons_of_ne_nil hfront
      obtain ⟨rfl,rfl⟩ := List.cons_eq_cons.mp hsplit
      refine ⟨(b :: part) :: front,back,rfl,List.cons_ne_nil _ _,hback,?_,?_⟩ <;>
        rw [List.intercalate_cons_cons_left,List.length_cons] <;> omega

/-! ### Parts of a text -/

theorem valid_append_iff (hp : Valid p) : Valid (p ++ rest) ↔ Valid rest := by
  induction hp with
  | nil => exact Iff.rfl
  | cons hc _ ih => rw [List.append_assoc,valid_cons_iff hc,ih]

/-- What stands before a text that is not empty ends at a boundary. -/
theorem boundary_before (hp : Valid p) (hne : p ≠ []) : Boundary (part ++ (p ++ rest)) part.length := by
  refine ⟨by rw [List.length_append]; omega,fun b hb => ?_⟩
  obtain ⟨a,p',rfl⟩ := List.exists_cons_of_ne_nil hne
  rw [List.getElem?_append_right (Nat.le_refl _),Nat.sub_self] at hb
  exact (boundary_zero hp).2 b hb

theorem Cut.valid (hp : Valid p) (hne : p ≠ []) (h : Cut p bs parts) (hbs : Valid bs) : ∀ part ∈ parts, Valid part := by
  induction parts generalizing bs with
  | nil => exact fun _ h => absurd h List.not_mem_nil
  | cons part parts ih =>
    cases parts with
    | nil =>
      intro q hq
      rwa [List.mem_singleton.mp hq,h.last]
    | cons q parts =>
      obtain ⟨rest,rfl,hcut⟩ := h.after
      obtain ⟨hpart,hrest⟩ := hbs.split (boundary_before hp hne)
      rw [List.take_left] at hpart
      rw [List.drop_left,valid_append_iff hp] at hrest
      exact List.forall_mem_cons.mpr ⟨hpart,ih hcut hrest⟩

theorem valid_intercalate (hr : Valid r) (h : ∀ part ∈ parts, Valid part) : Valid (r.intercalate parts) := by
  induction parts with
  | nil => exact .nil
  | cons part parts ih =>
    obtain ⟨hpart,hparts⟩ := List.forall_mem_cons.mp h
    cases parts with
    | nil => rwa [List.intercalate_singleton]
    | cons q parts =>
      rw [List.intercalate_cons_cons]
      exact (hpart.append hr).append (ih hparts)

end Ens.Search
