import Ens.Text.DecodeRun
import Ens.Text.Search
import Mathlib.Tactic.Ring

/-! # The loops over occurrences agree

The count, the search, the replacement and the split all go through one cut of the text, so that what the count says is what the others find,
and what is sized by it is filled.
-/
set_option linter.all false
namespace Ens.Search
open Loop Decode Utf8
variable {raw p r bs built part : List ℕ} {parts : List (List ℕ)} {i k n written found fuel : ℕ}

/-! ### One place -/

theorem matchesAt_eq (h : i + p.length ≤ raw.length) : matchesAt raw i p = .ok (decide (p <+: raw.drop i)) := by
  have hbytes : ∀ k ∈ List.range p.length, (do .ok (decide ((← entry raw (i + k)) = (← entry p k))) : Except Stop Bool) =
      .ok (decide (raw[i + k]? = p[k]?)) := by
    intro k hk
    have hlt := List.mem_range.mp hk
    have hin : i + k < raw.length := by omega
    have hraw : raw[i + k]? = some raw[i + k] := List.getElem?_eq_getElem hin
    have hpart : p[k]? = some p[k] := List.getElem?_eq_getElem hlt
    rw [entry_ok hraw,ok_bind,entry_ok hpart,ok_bind,hraw,hpart]
    simp only [Option.some.injEq]
  rw [matchesAt,allM_ok hbytes]
  congr 1
  rw [Bool.eq_iff_iff,List.all_eq_true,decide_eq_true_eq,List.prefix_iff_getElem?]
  constructor
  · intro hall k hk
    rw [List.getElem?_drop,of_decide_eq_true (hall k (List.mem_range.mpr hk)),List.getElem?_eq_getElem hk]
  · intro hpre k hk
    have hlt := List.mem_range.mp hk
    rw [decide_eq_true_eq,← List.getElem?_drop,hpre k hlt,List.getElem?_eq_getElem hlt]

/-- What a cut says of the place where it starts: the text ends, the needle occurs, or it does not. -/
theorem Cut.place (hp : p ≠ []) (h : Cut p (raw.drop i) parts) (hi : i ≤ raw.length) :
    (i = raw.length ∧ ¬i + p.length ≤ raw.length ∧ parts = [[]]) ∨
    (i < raw.length ∧ i + p.length ≤ raw.length ∧ matchesAt raw i p = .ok true ∧
      ∃ others, parts = [] :: others ∧ Cut p (raw.drop (i + p.length)) others) ∨
    (i < raw.length ∧ (i + p.length ≤ raw.length → matchesAt raw i p = .ok false) ∧
      ∃ b part others, raw[i]? = some b ∧ parts = (b :: part) :: others ∧ (¬i + p.length ≤ raw.length → others = []) ∧
        Cut p (raw.drop (i + 1)) (part :: others)) := by
  have hpos := List.length_pos_iff.mpr hp
  have hshort : raw.length < i + p.length → parts = [raw.drop i] := fun hlt => h.short (by
    rw [List.length_drop]
    omega)
  generalize hbs : raw.drop i = bs at h hshort
  have hlen := congrArg List.length hbs
  rw [List.length_drop] at hlen
  cases h with
  | stop =>
    rw [List.length_nil] at hlen
    exact .inl ⟨by omega,by omega,rfl⟩
  | @hit rest others hcut =>
    rw [List.length_append] at hlen
    have hfits : i + p.length ≤ raw.length := by omega
    refine .inr (.inl ⟨by omega,hfits,?_,others,rfl,?_⟩)
    · rw [matchesAt_eq hfits,hbs,decide_eq_true (List.prefix_append p rest)]
    · rwa [← List.drop_drop,hbs,List.drop_left]
  | @miss b rest part others hmiss hcut =>
    rw [List.length_cons] at hlen
    have hlt : i < raw.length := by omega
    rw [List.drop_eq_getElem_cons hlt] at hbs
    obtain ⟨rfl,rfl⟩ := List.cons_eq_cons.mp hbs
    refine .inr (.inr ⟨hlt,fun hfits => ?_,raw[i],part,others,List.getElem?_eq_getElem hlt,rfl,fun hnot => ?_,hcut⟩)
    · rw [matchesAt_eq hfits,List.drop_eq_getElem_cons hlt,decide_eq_false hmiss]
    · exact (List.cons_eq_cons.mp (hshort (by omega))).2

/-! ### The count and the search -/

theorem count_run (hp : p ≠ []) (h : Cut p (raw.drop i) parts) (hi : i ≤ raw.length) (hfuel : raw.length - i < fuel) :
    loop .endless (countStep raw p) fuel (found,i) = .ok (found + (parts.length - 1)) := by
  have hpos := List.length_pos_iff.mpr hp
  induction fuel generalizing i found parts with
  | zero => omega
  | succ fuel ih =>
    rcases h.place hp hi with ⟨-,hend,rfl⟩ | ⟨hlt,hfits,hmatch,others,rfl,hcut⟩ | ⟨hlt,hmatch,b,part,others,-,rfl,hlast,hcut⟩
    · exact loop_done (by rw [countStep,if_neg hend]; rfl)
    · have hstep : countStep raw p (found,i) = .ok (.next (found + 1,i + p.length)) := by
        rw [countStep,if_pos hfits,hmatch]
        rfl
      have hothers := List.length_pos_iff.mpr hcut.ne_nil
      rw [loop_next hstep,ih hcut hfits (by omega),List.length_cons]
      congr 1
      omega
    · by_cases hfits : i + p.length ≤ raw.length
      · have hstep : countStep raw p (found,i) = .ok (.next (found,i + 1)) := by
          rw [countStep,if_pos hfits,hmatch hfits]
          rfl
        rw [loop_next hstep,ih hcut hlt (by omega),List.length_cons,List.length_cons]
      · rw [hlast hfits]
        exact loop_done (by rw [countStep,if_neg hfits]; rfl)

theorem countOf_eq (hp : p ≠ []) (h : Cut p raw parts) : countOf raw p = .ok (parts.length - 1) := by
  have hrun : loop .endless (countStep raw p) (raw.length + 1) (0,0) = .ok (0 + (parts.length - 1)) :=
    count_run hp h (Nat.zero_le _) (Nat.lt_succ_self _)
  rwa [Nat.zero_add] at hrun

theorem index_run {q : List ℕ} (hp : p ≠ []) (h : Cut p (raw.drop i) (part :: q :: parts)) (hi : i ≤ raw.length)
    (hfuel : raw.length - i < fuel) : loop .endless (indexStep raw p) fuel i = .ok ((i + part.length : ℕ) : ℤ) := by
  induction fuel generalizing i part with
  | zero => omega
  | succ fuel ih =>
    rcases h.place hp hi with ⟨-,-,hparts⟩ | ⟨hlt,hfits,hmatch,others,hparts,-⟩ | ⟨hlt,hmatch,b,rest,others,-,hparts,hlast,hcut⟩
    · cases hparts
    · cases hparts
      exact loop_done (by rw [indexStep,if_pos hfits,hmatch]; rfl)
    · cases hparts
      by_cases hfits : i + p.length ≤ raw.length
      · have hstep : indexStep raw p i = .ok (.next (i + 1)) := by
          rw [indexStep,if_pos hfits,hmatch hfits]
          rfl
        rw [loop_next hstep,ih hcut hlt (by omega),List.length_cons]
        congr 2
        omega
      · cases hlast hfits

theorem indexOf_eq {q : List ℕ} (hp : p ≠ []) (h : Cut p (raw.drop i) (part :: q :: parts)) (hi : i ≤ raw.length) :
    indexOf raw p i = .ok ((i + part.length : ℕ) : ℤ) ∧ i + part.length + p.length ≤ raw.length ∧
      Cut p (raw.drop (i + part.length + p.length)) (q :: parts) := by
  obtain ⟨rest,hrest,hcut⟩ := h.after
  have hlen := congrArg List.length hrest
  rw [List.length_drop,List.length_append,List.length_append] at hlen
  have hpos := List.length_pos_iff.mpr hp
  refine ⟨?_,by omega,?_⟩
  · have hstart : (if (i : ℤ) < 0 then 0 else (i : ℤ).toNat) = i := by rw [if_neg (by omega),Int.toNat_natCast]
    rw [indexOf,hstart,if_neg (by omega)]
    exact index_run hp h hi (by omega)
  · rwa [← List.drop_drop,← List.drop_drop,hrest,List.drop_left,List.drop_left]

/-! ### Copies -/

def writeAll (built : List ℕ) (written : ℕ) : List ℕ → Except Stop (List ℕ × ℕ)
  | [] => .ok (built,written)
  | b :: bs => do
    let built ← put built written b
    writeAll built (written + 1) bs

theorem writeAll_append (bs cs : List ℕ) : writeAll built written (bs ++ cs) =
    (do let (built,written) ← writeAll built written bs; writeAll built written cs) := by
  induction bs generalizing built written with
  | nil => rfl
  | cons b bs ih =>
    rw [List.cons_append,writeAll,writeAll]
    cases put built written b with
    | error e => rfl
    | ok built' => exact ih

theorem copyInto_eq (text : List ℕ) : copyInto built written text = writeAll built written text := by
  induction text generalizing built written with
  | nil => rfl
  | cons b text ih =>
    have hnext : ∀ built, copyInto built (written + 1) text = (do
        let built ← ((List.range text.length).map Nat.succ).foldlM
          (fun built k => do put built (written + k) (← entry (b :: text) k)) built
        .ok (built,written + (b :: text).length)) := by
      intro built
      rw [copyInto,List.foldlM_map,List.length_cons,show written + 1 + text.length = written + (text.length + 1) by omega]
      congr 2
      funext built k
      rw [show written + k.succ = written + 1 + k by omega]
      rfl
    rw [copyInto,writeAll,List.length_cons,List.range_succ_eq_map,List.foldlM_cons]
    show (do
      let built ← (do
        let built ← put built written b
        ((List.range text.length).map Nat.succ).foldlM (fun built k => do put built (written + k) (← entry (b :: text) k)) built)
      .ok (built,written + (text.length + 1))) = _
    cases put built written b with
    | error e => rfl
    | ok built' => exact (hnext built').symm.trans ih

theorem writeAll_ok (h : written + bs.length ≤ built.length) : ∃ built', writeAll built written bs = .ok (built',written + bs.length) ∧
    built'.length = built.length ∧ built'.take (written + bs.length) = built.take written ++ bs := by
  induction bs generalizing built written with
  | nil => exact ⟨built,rfl,rfl,(List.append_nil _).symm⟩
  | cons b bs ih =>
    rw [List.length_cons] at h
    have hlt : written < built.length := by omega
    obtain ⟨built1,hput,hlen,htake⟩ := put_next b hlt rfl
    have hfits : written + 1 + bs.length ≤ built1.length := by omega
    obtain ⟨built2,hrun,hlen',htake'⟩ := ih hfits
    rw [show written + 1 + bs.length = written + (b :: bs).length by rw [List.length_cons]; omega] at hrun htake'
    refine ⟨built2,?_,hlen'.trans hlen,?_⟩
    · rw [writeAll,hput,ok_bind,hrun]
    · rw [htake',htake,List.append_assoc]
      rfl

theorem writeAll_aborts (hle : written ≤ built.length) (h : built.length < written + bs.length) :
    writeAll built written bs = .error .abort := by
  induction bs generalizing built written with
  | nil =>
    rw [List.length_nil] at h
    omega
  | cons b bs ih =>
    rw [List.length_cons] at h
    rw [writeAll]
    by_cases hlt : written < built.length
    · rw [put,if_pos hlt,ok_bind]
      exact ih (by rw [List.length_set]; exact hlt) (by rw [List.length_set]; omega)
    · rw [put,if_neg hlt,error_bind]

def filled (bs : List ℕ) : Except Stop (List ℕ) := if bs.length < 2 ^ 63 then .ok bs else .error .abort

/-- An array of the width the bytes have, as far as a long says it, is filled by them or is too small. -/
theorem fill_eq (bs : List ℕ) : (do
    let built ← newArray (Long.wrap bs.length)
    let (built,_) ← writeAll built 0 bs
    .ok built) = filled bs := by
  rw [filled]
  by_cases hlt : bs.length < 2 ^ 63
  · have hwrap : Long.wrap (bs.length : ℤ) = bs.length := Long.wrap_eq (by unfold Long.Fits; omega)
    have hlen : (List.replicate bs.length 0).length = bs.length := List.length_replicate
    have hfits : 0 + bs.length ≤ (List.replicate bs.length 0).length := by omega
    obtain ⟨built,hrun,hlen',htake⟩ := writeAll_ok hfits
    rw [if_pos hlt,hwrap,newArray,if_neg (by omega),Int.toNat_natCast,ok_bind,hrun]
    rw [Nat.zero_add,← hlen,← hlen',List.take_length] at htake
    exact congrArg Except.ok htake
  · rw [if_neg hlt]
    have hfits := Long.fits_wrap bs.length
    unfold Long.Fits at hfits
    by_cases hneg : Long.wrap (bs.length : ℤ) < 0
    · rw [newArray,if_pos hneg,error_bind]
    · rw [newArray,if_neg hneg,ok_bind,writeAll_aborts (Nat.zero_le _) (by rw [List.length_replicate]; omega),error_bind]

/-! ### Joining and replacing -/

theorem wrap_add (x y : ℤ) : Long.wrap (Long.wrap x + y) = Long.wrap (x + y) := Int.bmod_add_bmod ..

theorem wrap_add_wrap (x y : ℤ) : Long.wrap (x + Long.wrap y) = Long.wrap (x + y) := by
  rw [Int.add_comm,wrap_add,Int.add_comm]

theorem width_eq (x : ℤ) : parts.foldl (fun width part => Long.wrap (width + part.length)) (Long.wrap x) =
    Long.wrap (x + (parts.map List.length).sum) := by
  induction parts generalizing x with
  | nil => simp
  | cons part parts ih =>
    rw [List.foldl_cons,wrap_add,ih,List.map_cons,List.sum_cons,Nat.cast_add,Int.add_assoc]

theorem length_intercalate (part : List ℕ) (parts : List (List ℕ)) : (r.intercalate (part :: parts)).length =
    r.length * parts.length + ((part :: parts).map List.length).sum := by
  induction parts generalizing part with
  | nil => simp
  | cons q parts ih =>
    rw [List.intercalate_cons_cons,List.length_append,List.length_append,ih q,List.map_cons (l := q :: parts),List.sum_cons,List.length_cons,
      Nat.mul_succ]
    omega

theorem joined_loop (built : List ℕ) (written : ℕ) (part : List ℕ) (parts : List (List ℕ)) : (do
    let (built,written) ← copyInto built written part
    let (built,_) ← parts.foldlM (fun (built,written) part => do
      let (built,written) ← copyInto built written r
      copyInto built written part) (built,written)
    .ok built : Except Stop (List ℕ)) = (do
    let (built,_) ← writeAll built written (r.intercalate (part :: parts))
    .ok built) := by
  induction parts generalizing part built written with
  | nil =>
    rw [List.intercalate_singleton,copyInto_eq]
    rfl
  | cons q parts ih =>
    rw [List.intercalate_cons_cons,List.append_assoc,writeAll_append,copyInto_eq]
    cases writeAll built written part with
    | error e => rfl
    | ok s =>
      obtain ⟨built1,written1⟩ := s
      rw [ok_bind,ok_bind]
      dsimp only
      rw [List.foldlM_cons,writeAll_append,copyInto_eq]
      dsimp only
      cases writeAll built1 written1 r with
      | error e => rfl
      | ok s =>
        obtain ⟨built2,written2⟩ := s
        have hnext := ih built2 written2 q
        revert hnext
        rw [ok_bind]
        dsimp only
        cases copyInto built2 written2 q with
        | error e => exact id
        | ok s => exact id

theorem joined_eq (h : parts ≠ []) : joined parts r = filled (r.intercalate parts) := by
  obtain ⟨part,parts,rfl⟩ := List.exists_cons_of_ne_nil h
  rw [← fill_eq,length_intercalate,joined,width_eq,Nat.cast_add,Nat.cast_mul]
  cases newArray (Long.wrap (r.length * parts.length + ((part :: parts).map List.length).sum)) with
  | error e => rfl
  | ok built => exact joined_loop built 0 part parts

theorem replaceStep_hit (hlt : i < raw.length) (hfits : i + p.length ≤ raw.length) (hmatch : matchesAt raw i p = .ok true) :
    replaceStep raw p r (built,i,written) = (do
      let (built,written) ← writeAll built written r
      .ok (.next (built,i + p.length,written))) := by
  rw [replaceStep,if_pos hlt,if_pos hfits,hmatch,← copyInto_eq]
  rfl

theorem replaceStep_miss {b : ℕ} (hlt : i < raw.length) (hmatch : i + p.length ≤ raw.length → matchesAt raw i p = .ok false)
    (hb : raw[i]? = some b) : replaceStep raw p r (built,i,written) = (do
      let built ← put built written b
      .ok (.next (built,i + 1,written + 1))) := by
  have hnot : (if i + p.length ≤ raw.length then matchesAt raw i p else .ok false) = .ok false := by
    by_cases hfits : i + p.length ≤ raw.length
    · rw [if_pos hfits,hmatch hfits]
    · rw [if_neg hfits]
  rw [replaceStep,if_pos hlt,hnot,entry_ok hb]
  rfl

theorem replace_run (hp : p ≠ []) (h : Cut p (raw.drop i) parts) (hi : i ≤ raw.length) (hfuel : raw.length - i < fuel) :
    loop .endless (replaceStep raw p r) fuel (built,i,written) = (do
      let (built,_) ← writeAll built written (r.intercalate parts)
      .ok built) := by
  have hpos := List.length_pos_iff.mpr hp
  induction fuel generalizing i built written parts with
  | zero => omega
  | succ fuel ih =>
    rcases h.place hp hi with ⟨hend,-,rfl⟩ | ⟨hlt,hfits,hmatch,others,rfl,hcut⟩ | ⟨hlt,hmatch,b,part,others,hb,rfl,hlast,hcut⟩
    · exact loop_done (by rw [replaceStep,if_neg (by omega)])
    · rw [List.intercalate_cons_of_ne_nil hcut.ne_nil,List.nil_append,writeAll_append,loop,replaceStep_hit hlt hfits hmatch]
      cases writeAll built written r with
      | error e => rfl
      | ok s => exact ih hcut hfits (by omega)
    · rw [List.intercalate_cons_cons_left,writeAll,loop,replaceStep_miss hlt hmatch hb]
      cases put built written b with
      | error e => rfl
      | ok built' => exact ih hcut hlt (by omega)

theorem replace_eq (hp : p ≠ []) (h : Cut p raw parts) (hraw : raw.length < 2 ^ 63) : replace raw p r = joined parts r := by
  have hempty : p.isEmpty = false := List.isEmpty_eq_false_iff.mpr hp
  rw [joined_eq h.ne_nil,replace,hempty,if_neg Bool.false_ne_true,countOf_eq hp h,ok_bind]
  obtain ⟨part,others,rfl⟩ := h.exists_cons
  rw [List.length_cons,Nat.add_sub_cancel]
  cases others with
  | nil => rw [if_pos List.length_nil,List.intercalate_singleton,h.last,filled,if_pos hraw]
  | cons q others =>
    have hlen := congrArg List.length h.intercalate
    rw [length_intercalate] at hlen
    rw [if_neg (by rw [List.length_cons]; omega),← fill_eq,length_intercalate,wrap_add_wrap]
    have hwidth : (raw.length : ℤ) + ((q :: others).length : ℕ) * ((r.length : ℤ) - p.length) =
        ((r.length * (q :: others).length + ((part :: q :: others).map List.length).sum : ℕ) : ℤ) := by
      rw [← hlen]
      push_cast
      ring
    rw [hwidth]
    dsimp only
    generalize newArray (Long.wrap ((r.length * (q :: others).length + ((part :: q :: others).map List.length).sum : ℕ) : ℤ)) = made
    cases made with
    | error e => rfl
    | ok built => exact replace_run hp (i := 0) h (Nat.zero_le _) (by omega)

/-! ### The split -/

/-- What the split has found of one part. -/
def Found (raw : List ℕ) (starts ends : List ℤ) (j : ℕ) (part : List ℕ) : Prop :=
  ∃ s e : ℕ, starts[j]? = some (s : ℤ) ∧ ends[j]? = some (e : ℤ) ∧ s ≤ e ∧ e ≤ raw.length ∧ (raw.take e).drop s = part

theorem Found.slice {starts ends : List ℤ} {j : ℕ} (h : Found raw starts ends j part) :
    (do sliceUnchecked raw (← entry starts j) (← entry ends j)) = .ok part := by
  obtain ⟨s,e,hs,he,hle,hend,rfl⟩ := h
  rw [entry_ok hs,ok_bind,entry_ok he,ok_bind,sliceUnchecked,if_pos ⟨by omega,by omega,by omega⟩,Int.toNat_natCast,Int.toNat_natCast]

/-- The bounds found so far, and where the rest of the text is cut into the other parts. -/
def Bounds (raw p : List ℕ) (parts : List (List ℕ)) (k : ℕ) : List ℤ × List ℤ × ℤ → Prop
  | (starts,ends,start) => starts.length = parts.length ∧ ends.length = parts.length ∧
    (∀ j part, j < k → parts[j]? = some part → Found raw starts ends j part) ∧
    ∃ i : ℕ, start = i ∧ i ≤ raw.length ∧ Cut p (raw.drop i) (parts.drop k)

/-- The bounds of a part put beside the ones found before it. -/
theorem found_set {starts ends : List ℤ} (hstarts : k < starts.length) (hends : k < ends.length)
    (hfound : ∀ j part, j < k → parts[j]? = some part → Found raw starts ends j part) {s e : ℕ} (hle : s ≤ e) (hend : e ≤ raw.length)
    (hpart : parts[k]? = some ((raw.take e).drop s)) {j : ℕ} (hj : j < k + 1) {part : List ℕ} (h : parts[j]? = some part) :
    Found raw (starts.set k s) (ends.set k e) j part := by
  rcases Nat.lt_succ_iff_lt_or_eq.mp hj with hlt | rfl
  · obtain ⟨s',e',hs',he',hle',hend',hslice⟩ := hfound j part hlt h
    exact ⟨s',e',by rw [List.getElem?_set_ne (by omega),hs'],by rw [List.getElem?_set_ne (by omega),he'],hle',hend',hslice⟩
  · rw [hpart] at h
    exact ⟨s,e,List.getElem?_set_self hstarts,List.getElem?_set_self hends,hle,hend,Option.some.inj h⟩

theorem partsOn_found (hp : p ≠ []) (h : Cut p raw parts) : ∃ found, partsOn raw p = .ok found ∧ found.starts.length = parts.length ∧
    ∀ j part, parts[j]? = some part → Found raw found.starts found.ends j part := by
  have hempty : p.isEmpty = false := List.isEmpty_eq_false_iff.mpr hp
  have hcount := List.length_pos_iff.mpr h.ne_nil
  have hlen : parts.length - 1 + 1 = parts.length := by omega
  have hfold := foldlM_range (E := Stop) (n := parts.length - 1)
    (f := fun (starts,ends,i) part => do
      let found ← indexOf raw p i
      .ok (← put starts part i,← put ends part found,found + p.length))
    (b := (List.replicate (parts.length - 1 + 1) (0 : ℤ),List.replicate (parts.length - 1 + 1) (0 : ℤ),(0 : ℤ)))
    (I := Bounds raw p parts) (fun k hk b hb => ?_) ⟨by rw [List.length_replicate,hlen],by rw [List.length_replicate,hlen],
      fun j part hj => absurd hj (Nat.not_lt_zero j),0,rfl,Nat.zero_le _,h⟩
  · obtain ⟨⟨starts,ends,start⟩,hrun,hstarts,hends,hfound,i,rfl,hi,hcut⟩ := hfold
    obtain ⟨last,hlast⟩ : ∃ last, parts.drop (parts.length - 1) = [last] := by
      refine List.length_eq_one_iff.mp ?_
      rw [List.length_drop]
      omega
    rw [hlast] at hcut
    have hpart : parts[parts.length - 1]? = some ((raw.take raw.length).drop i) := by
      rw [List.take_length,← hcut.last]
      have hget := congrArg (·[0]?) hlast
      simpa using hget
    refine ⟨⟨starts.set (parts.length - 1) i,ends.set (parts.length - 1) raw.length⟩,?_,by rw [List.length_set,hstarts],
      fun j part h => found_set (by omega) (by omega) hfound hi (Nat.le_refl _) hpart ?_ h⟩
    · have hlast1 : parts.length - 1 < starts.length := by omega
      have hlast2 : parts.length - 1 < ends.length := by omega
      rw [partsOn,hempty,if_neg Bool.false_ne_true,countOf_eq hp h,ok_bind]
      dsimp only
      rw [hrun,ok_bind,put,if_pos hlast1,ok_bind,put,if_pos hlast2,ok_bind]
    · have hj := (List.getElem?_eq_some_iff.mp h).1
      omega
  obtain ⟨starts,ends,start⟩ := b
  obtain ⟨hstarts,hends,hfound,i,rfl,hi,hcut⟩ := hb
  have hk' : k < parts.length := by omega
  have hk'' : k + 1 < parts.length := by omega
  rw [List.drop_eq_getElem_cons hk',List.drop_eq_getElem_cons hk''] at hcut
  obtain ⟨hindex,hfits,hcut'⟩ := indexOf_eq hp hcut hi
  refine ⟨(starts.set k i,ends.set k (i + parts[k].length : ℕ),((i + parts[k].length : ℕ) : ℤ) + p.length),?_,
    by rw [List.length_set,hstarts],by rw [List.length_set,hends],fun j part hj h => ?_,i + parts[k].length + p.length,by push_cast; rfl,hfits,?_⟩
  · dsimp only
    rw [hindex,ok_bind,put,if_pos (by omega),ok_bind,put,if_pos (by omega),ok_bind]
  · refine found_set (by omega) (by omega) hfound (Nat.le_add_right _ _) (by omega) ?_ hj h
    rw [List.drop_take,Nat.add_sub_cancel_left,← List.prefix_iff_eq_take.mp hcut.prefix_head,List.getElem?_eq_getElem hk']
  · rwa [List.drop_eq_getElem_cons hk'']

theorem mapM_range {A : Type} {f : ℕ → Except Stop A} {xs : List A} (h : ∀ j x, xs[j]? = some x → f j = .ok x) :
    (List.range xs.length).mapM f = .ok xs := by
  induction xs generalizing f with
  | nil => rfl
  | cons x xs ih =>
    have hrest : (List.range xs.length).mapM (fun j => f j.succ) = .ok xs := ih fun j y hy => h (j + 1) y hy
    rw [List.length_cons,List.range_succ_eq_map,List.mapM_cons,h 0 x rfl,ok_bind,List.mapM_map]
    exact congrArg (fun r => r >>= fun xs => .ok (x :: xs)) hrest

theorem split_eq (hp : p ≠ []) (h : Cut p raw parts) : split raw p = .ok parts := by
  obtain ⟨found,hrun,hlen,hfound⟩ := partsOn_found hp h
  rw [split,hrun,ok_bind,hlen]
  exact mapM_range fun j part hj => (hfound j part hj).slice

/-- Joining the parts of a split gives the text again, and joining them with another text is replacing. Each part and each result is a text
although nothing checks it, what is sized in advance is filled, and only a result too long for a long aborts. No part holds what the text was
split at, which occurs only where it was taken or where it begins inside an occurrence taken further left. -/
theorem split_joined (s p r : Text) (hs : s.length < 2 ^ 63) (hp : p.bytes ≠ []) :
    ∃ parts, split s.bytes p.bytes = .ok parts ∧ joined parts p.bytes = .ok s.bytes ∧
      replace s.bytes p.bytes r.bytes = joined parts r.bytes ∧
      (∀ part ∈ parts, Valid part ∧ ¬p.bytes <:+: part) ∧
      (∀ j, p.bytes <+: s.bytes.drop j → Taken p.bytes parts j) ∧
      Valid (r.bytes.intercalate parts) ∧
      joined parts r.bytes = if (r.bytes.intercalate parts).length < 2 ^ 63 then .ok (r.bytes.intercalate parts) else .error .abort := by
  obtain ⟨parts,hcut⟩ := exists_cut hp s.bytes
  have hvalid := hcut.valid p.valid hp s.valid
  refine ⟨parts,split_eq hp hcut,?_,replace_eq hp hcut hs,fun part hpart => ⟨hvalid part hpart,hcut.not_infix hp part hpart⟩,
    fun j hj => hcut.taken hp hj,valid_intercalate r.valid hvalid,joined_eq hcut.ne_nil⟩
  rw [joined_eq hcut.ne_nil,hcut.intercalate]
  exact if_pos hs

/-- Of two occurrences that overlap the first is taken. -/
theorem split_joined_overlapping : ∃ parts, split [97,97,97] [97,97] = .ok parts ∧ joined parts [97,97] = .ok [97,97,97] ∧
    replace [97,97,97] [97,97] [98] = joined parts [98] ∧ Taken [97,97] parts 1 := by
  obtain ⟨parts,hsplit,hjoined,hreplace,-,htaken,-⟩ := split_joined ⟨[97,97,97],valid_ascii (by decide)⟩ ⟨[97,97],valid_ascii (by decide)⟩
    ⟨[98],valid_ascii (by decide)⟩ (by decide) (by decide)
  exact ⟨parts,hsplit,hjoined,hreplace,htaken 1 (by decide)⟩

end Ens.Search
