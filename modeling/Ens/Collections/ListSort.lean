import Ens.Collections.ListSpec
import Mathlib.Data.List.Sort

/-! # Sorting a list

Runs of sorted values are merged in pairs from one store into another and back, until one run is left. A merge takes from the first run
unless the second has a value that sorts strictly earlier, so values the order calls equal stay as they were.
-/
set_option linter.all false
namespace Ens.Collections.ListStore
open Loop
variable {T : Type}

namespace EnsList

def takesLeft (source : RawArray T) (left middle right stop : ℕ) (order : T → T → ℤ) : Except Stop Bool :=
  if left < middle then
    if stop ≤ right then .ok true else do .ok (decide (order (← source.read left) (← source.read right) ≤ 0))
  else .ok false

def mergeStep (source : RawArray T) (start middle stop : ℕ) (order : T → T → ℤ) :
    RawArray T × ℕ × ℕ → ℕ → Except Stop (RawArray T × ℕ × ℕ)
  | (target,left,right), k => do
    if ← takesLeft source left middle right stop order then
      .ok (← target.write (start + k) (← source.read left),left + 1,right)
    else .ok (← target.write (start + k) (← source.read right),left,right + 1)

/-- The runs [start,middle) and [middle,stop) of `source` merged into the same range of `target`. -/
def mergeRuns (source target : RawArray T) (start middle stop : ℕ) (order : T → T → ℤ) : Except Stop (RawArray T) := do
  let (target,_,_) ← (List.range (stop - start)).foldlM (mergeStep source start middle stop order) (target,start,middle)
  .ok target

-- No store has more slots than a process has bytes, so the sums below stay far from the end of a `long`.
def mergePass (fuel : ℕ) (source target : RawArray T) (count width : ℕ) (order : T → T → ℤ) : Except Stop (RawArray T) :=
  loop .endless (fun (target,start) =>
    if start < count then do
      let target ← mergeRuns source target start (min (start + width) count) (min (start + width * 2) count) order
      .ok (.next (target,start + width * 2))
    else .ok (.done target)) fuel (target,0)

def sort (fuel : ℕ) (l : EnsList T) (order : T → T → ℤ) : Except Stop (EnsList T) :=
  if l.count < 2 then .ok l
  else do
    let (source,target,sortedInScratch) ← loop .endless (fun (source,target,sortedInScratch,width) =>
      if width < l.count then do
        let merged ← mergePass fuel source target l.count width order
        .ok (.next (merged,source,!sortedInScratch,width * 2))
      else .ok (.done (source,target,sortedInScratch))) fuel (l.items,RawArray.allocate l.count,false,1)
    if sortedInScratch then .ok ⟨← copied source l.count target,l.count⟩ else .ok ⟨source,l.count⟩

end EnsList

/-! ### Orders -/

/-- Negative when the first argument sorts first, zero when neither does, positive when the second does. -/
structure TotalPreorder (order : T → T → ℤ) : Prop where
  sign : ∀ a b, order a b ≤ 0 ↔ 0 ≤ order b a
  trans : ∀ a b c, order a b ≤ 0 → order b c ≤ 0 → order a c ≤ 0

variable {order : T → T → ℤ} {xs ys zs : List T} {a b c w : ℕ}

theorem TotalPreorder.self (ho : TotalPreorder order) (x : T) : order x x ≤ 0 := by
  have hsign := ho.sign x x
  omega

def Sorted (order : T → T → ℤ) (xs : List T) : Prop := xs.Pairwise fun x y => order x y ≤ 0

structure Arranges (order : T → T → ℤ) (xs ys : List T) : Prop where
  perm : ys.Perm xs
  stable : ∀ x, ys.filter (fun y => order x y = 0) = xs.filter fun y => order x y = 0

theorem Arranges.refl (xs : List T) : Arranges order xs xs := ⟨.refl _,fun _ => rfl⟩

theorem Arranges.trans (h : Arranges order xs ys) (h' : Arranges order ys zs) : Arranges order xs zs :=
  ⟨h'.perm.trans h.perm,fun x => (h'.stable x).trans (h.stable x)⟩

theorem Arranges.append {xs' ys' : List T} (h : Arranges order xs ys) (h' : Arranges order xs' ys') :
    Arranges order (xs ++ xs') (ys ++ ys') :=
  ⟨h.perm.append h'.perm,fun x => by rw [List.filter_append,List.filter_append,h.stable,h'.stable]⟩

def earlier (order : T → T → ℤ) (x y : T) : Bool := decide (order x y ≤ 0)

theorem merge_sorted (ho : TotalPreorder order) (hx : Sorted order xs) (hy : Sorted order ys) :
    Sorted order (xs.merge ys (earlier order)) := by
  have htrans : ∀ a b c, earlier order a b = true → earlier order b c = true → earlier order a c = true := by
    simpa [earlier] using ho.trans
  have htotal : ∀ a b, (earlier order a b || earlier order b a) = true := by
    intro a b
    have hsign := ho.sign a b
    simp only [earlier,Bool.or_eq_true,decide_eq_true_eq]
    omega
  have hmerge := List.pairwise_merge htrans htotal xs ys (by simpa [earlier,Sorted] using hx) (by simpa [earlier,Sorted] using hy)
  simpa [earlier,Sorted] using hmerge

/-- A value of the second run that is taken sorts strictly before all that is left of the first. -/
theorem merge_stable (ho : TotalPreorder order) (hx : Sorted order xs) (z : T) :
    (xs.merge ys (earlier order)).filter (fun y => order z y = 0) =
      xs.filter (fun y => order z y = 0) ++ ys.filter fun y => order z y = 0 := by
  induction xs generalizing ys with
  | nil => simp
  | cons x xs ih =>
    induction ys with
    | nil => simp
    | cons y ys ihy =>
      by_cases hle : order x y ≤ 0
      · rw [List.cons_merge_cons_pos _ _ _ (decide_eq_true hle),List.filter_cons,List.filter_cons,ih (List.pairwise_cons.mp hx).2]
        split_ifs <;> rfl
      · rw [List.cons_merge_cons_neg _ _ _ (by simpa [earlier] using hle),List.filter_cons,ihy,List.filter_cons (x := y)]
        split_ifs with hz
        · have hnone : (x :: xs).filter (fun y => order z y = 0) = [] := by
            refine List.filter_eq_nil_iff.mpr fun u hu hzu => hle ?_
            have hxu : order x u ≤ 0 := by
              rcases List.mem_cons.mp hu with rfl | hu
              · exact ho.self u
              · exact (List.pairwise_cons.mp hx).1 u hu
            have huz : order u z ≤ 0 := (ho.sign u z).mpr (of_decide_eq_true hzu).ge
            exact ho.trans x u y hxu (ho.trans u z y huz (of_decide_eq_true hz).le)
          rw [hnone]
          rfl
        · rfl

theorem merge_arranges (ho : TotalPreorder order) (hx : Sorted order xs) : Arranges order (xs ++ ys) (xs.merge ys (earlier order)) :=
  ⟨List.merge_perm_append _,fun z => (merge_stable ho hx z).trans (List.filter_append _ _).symm⟩

/-! ### One merge -/

def slice (xs : List T) (a b : ℕ) : List T := (xs.drop a).take (b - a)

theorem slice_self : slice xs a a = [] := by rw [slice,Nat.sub_self,List.take_zero]

theorem slice_cons (hab : a < b) (hb : b ≤ xs.length) : slice xs a b = xs[a] :: slice xs (a + 1) b := by
  rw [slice,List.drop_eq_getElem_cons (by omega),show b - a = (b - (a + 1)) + 1 by omega,List.take_succ_cons,slice]

theorem length_slice (hb : b ≤ xs.length) : (slice xs a b).length = b - a := by
  rw [slice,List.length_take,List.length_drop]
  omega

theorem slice_append (hab : a ≤ b) (hbc : b ≤ c) : slice xs a b ++ slice xs b c = slice xs a c := by
  rw [slice,slice,slice,show c - a = (b - a) + (c - b) by omega,List.take_add,List.drop_drop,Nat.add_sub_cancel' hab]

variable {source target rest : RawArray T} {start middle stop left right : ℕ}

structure Merging (order : T → T → ℤ) (xs : List T) (target : RawArray T) (start middle stop : ℕ) (k : ℕ)
    (state : RawArray T × ℕ × ℕ) : Prop where
  left : state.2.1 ≤ middle
  right : middle ≤ state.2.2 ∧ state.2.2 ≤ stop
  counted : state.2.1 + state.2.2 = start + middle + k
  written : ∃ done : List T, done.length = k ∧ state.1 = target.take start ++ done.map some ++ target.drop (start + k) ∧
    (slice xs start middle).merge (slice xs middle stop) (earlier order) =
      done ++ (slice xs state.2.1 middle).merge (slice xs state.2.2 stop) (earlier order)

/-- A merge with values left takes one off the run that the order says. -/
theorem takesLeft_ok (order : T → T → ℤ) (rest : RawArray T) (hl : left ≤ middle) (hm : middle ≤ right) (hr : right ≤ stop) (hstop : stop ≤ xs.length) (hlt : left < middle ∨ right < stop) :
    (∃ v, EnsList.takesLeft (xs.map some ++ rest) left middle right stop order = .ok true ∧ left < middle ∧
      RawArray.read (xs.map some ++ rest) left = .ok v ∧ (slice xs left middle).merge (slice xs right stop) (earlier order) =
        v :: (slice xs (left + 1) middle).merge (slice xs right stop) (earlier order)) ∨
    ∃ v, EnsList.takesLeft (xs.map some ++ rest) left middle right stop order = .ok false ∧ right < stop ∧
      RawArray.read (xs.map some ++ rest) right = .ok v ∧ (slice xs left middle).merge (slice xs right stop) (earlier order) =
        v :: (slice xs left middle).merge (slice xs (right + 1) stop) (earlier order) := by
  rw [EnsList.takesLeft]
  split_ifs with hleft hright
  · have hx : RawArray.read (xs.map some ++ rest) left = .ok xs[left] := read_filled (by omega)
    obtain rfl : right = stop := by omega
    refine .inl ⟨_,rfl,hleft,hx,?_⟩
    rw [slice_cons hleft (by omega),slice_self,List.merge_right,List.merge_right]
  · have hright := not_le.mp hright
    have hx : RawArray.read (xs.map some ++ rest) left = .ok xs[left] := read_filled (by omega)
    have hy : RawArray.read (xs.map some ++ rest) right = .ok xs[right] := read_filled (by omega)
    have hcons : slice xs left middle = xs[left] :: slice xs (left + 1) middle := slice_cons hleft (by omega)
    have hcons' : slice xs right stop = xs[right] :: slice xs (right + 1) stop := slice_cons hright hstop
    rw [hx,ok_bind,hy,ok_bind]
    by_cases hle : order xs[left] xs[right] ≤ 0
    · refine .inl ⟨_,by rw [decide_eq_true hle],hleft,rfl,?_⟩
      rw [hcons,hcons',List.cons_merge_cons_pos _ _ _ (decide_eq_true hle)]
    · refine .inr ⟨_,by rw [decide_eq_false hle],hright,rfl,?_⟩
      rw [hcons,hcons',List.cons_merge_cons_neg _ _ _ (by simpa [earlier] using hle)]
  · have hright : right < stop := hlt.resolve_left hleft
    have hy : RawArray.read (xs.map some ++ rest) right = .ok xs[right] := read_filled (by omega)
    obtain rfl : left = middle := by omega
    refine .inr ⟨_,rfl,hright,hy,?_⟩
    rw [slice_cons hright hstop,slice_self,List.nil_merge,List.nil_merge]

theorem mergeStep_ok (rest : RawArray T) {k : ℕ} {state : RawArray T × ℕ × ℕ} (hk : k < stop - start) (hstop : stop ≤ xs.length) (htarget : stop ≤ target.length)
    (h : Merging order xs target start middle stop k state) :
    ∃ state', EnsList.mergeStep (xs.map some ++ rest) start middle stop order state k = .ok state' ∧
      Merging order xs target start middle stop (k + 1) state' := by
  obtain ⟨target',left,right⟩ := state
  obtain ⟨hleft,⟨hmr,hright⟩,hcount,done,hdone,hwritten,hmerge⟩ := h
  dsimp only at hleft hmr hright hcount hwritten hmerge
  have hlen : (target.take start ++ done.map some).length = start + k := by
    rw [List.length_append,List.length_take,List.length_map,hdone]
    omega
  have hwrite : ∀ v, RawArray.write target' (start + k) v =
      .ok (target.take start ++ (done ++ [v]).map some ++ target.drop (start + (k + 1))) := by
    intro v
    rw [hwritten,List.drop_eq_getElem_cons (by omega),RawArray.write_middle hlen]
    simp [Nat.add_assoc]
  have hlonger : ∀ v, (done ++ [v]).length = k + 1 := fun v => by rw [List.length_append,hdone]; rfl
  rw [EnsList.mergeStep]
  rcases takesLeft_ok order rest hleft hmr hright hstop (by omega) with ⟨v,htake,hlt,hread,hcons⟩ | ⟨v,htake,hlt,hread,hcons⟩
  · rw [htake,ok_bind,if_pos rfl,hread,ok_bind,hwrite,ok_bind]
    exact ⟨_,rfl,hlt,⟨hmr,hright⟩,by dsimp only; omega,done ++ [v],hlonger v,rfl,by rw [hmerge,hcons,List.append_assoc]; rfl⟩
  · rw [htake,ok_bind,if_neg Bool.false_ne_true,hread,ok_bind,hwrite,ok_bind]
    exact ⟨_,rfl,hleft,⟨Nat.le_succ_of_le hmr,hlt⟩,by dsimp only; omega,done ++ [v],hlonger v,rfl,by rw [hmerge,hcons,List.append_assoc]; rfl⟩

/-- The two runs are merged into the same range, and nothing else of the target changes. -/
theorem mergeRuns_ok (hsm : start ≤ middle) (hms : middle ≤ stop) (hstop : stop ≤ xs.length) (htarget : stop ≤ target.length) :
    EnsList.mergeRuns (xs.map some ++ rest) target start middle stop order = .ok (target.take start ++
      ((slice xs start middle).merge (slice xs middle stop) (earlier order)).map some ++ target.drop stop) := by
  have hfirst : Merging order xs target start middle stop 0 (target,start,middle) :=
    ⟨hsm,⟨le_rfl,hms⟩,rfl,[],rfl,by simp,by simp⟩
  obtain ⟨⟨final,left,right⟩,hrun,hleft,⟨hmr,hright⟩,hcount,done,hdone,hfinal,hmerge⟩ := foldlM_range
    (fun k hk state hinv => mergeStep_ok rest hk hstop htarget hinv) hfirst
  dsimp only at hleft hmr hright hcount hfinal hmerge
  obtain rfl : left = middle := by omega
  obtain rfl : right = stop := by omega
  rw [slice_self,slice_self,List.nil_merge,List.append_nil] at hmerge
  rw [EnsList.mergeRuns,hrun,ok_bind,hfinal,hmerge,Nat.add_sub_cancel' (hsm.trans hms)]

/-! ### One pass -/

/-- Every run of this width is sorted. -/
def Runs (order : T → T → ℤ) (w : ℕ) (xs : List T) : Prop := ∀ a, w ∣ a → Sorted order (slice xs a (a + w))

theorem slice_past (ha : xs.length ≤ a) : slice xs a b = [] := by rw [slice,List.drop_eq_nil_of_le ha,List.take_nil]

theorem slice_min : slice xs a (min b xs.length) = slice xs a b := by
  rw [slice,slice]
  rcases le_total b xs.length with hb | hb
  · rw [Nat.min_eq_left hb]
  · rw [Nat.min_eq_right hb,List.take_of_length_le (by rw [List.length_drop]),List.take_of_length_le (by rw [List.length_drop]; omega)]

theorem slice_left (hb : b ≤ xs.length) : slice (xs ++ ys) a b = slice xs a b := by
  rcases le_total a b with hab | hba
  · rw [slice,slice,List.drop_append_of_le_length (hab.trans hb),List.take_append_of_le_length (by rw [List.length_drop]; omega)]
  · rw [slice,slice,Nat.sub_eq_zero_of_le hba,List.take_zero,List.take_zero]

theorem slice_right : slice (xs ++ ys) xs.length b = ys.take (b - xs.length) := by rw [slice,List.drop_left]

theorem Runs.one (xs : List T) : Runs order 1 xs := fun a _ => by
  have hlen : (slice xs a (a + 1)).length ≤ 1 := by
    rw [slice,List.length_take]
    omega
  rw [Sorted]
  match slice xs a (a + 1),hlen with
  | [],_ => exact List.Pairwise.nil
  | [x],_ => exact List.pairwise_singleton _ x

theorem Runs.append (hx : Runs order w xs) (hlen : w ∣ xs.length) (hy : Sorted order ys) (hyw : ys.length ≤ w) :
    Runs order w (xs ++ ys) := by
  intro a ha
  obtain ⟨n,hn⟩ := hlen
  obtain ⟨m,rfl⟩ := ha
  rcases Nat.lt_trichotomy m n with hlt | rfl | hgt
  · have hle : w * m + w ≤ xs.length := by
      rw [hn,← Nat.mul_succ]
      exact Nat.mul_le_mul_left w hlt
    rw [slice_left hle]
    exact hx _ (Nat.dvd_mul_right w m)
  · rw [← hn,slice_right]
    exact hy.sublist (List.take_sublist _ _)
  · have hle : w * n + w ≤ w * m := by
      rw [← Nat.mul_succ]
      exact Nat.mul_le_mul_left w hgt
    rw [slice_past (by rw [List.length_append]; omega)]
    exact List.Pairwise.nil

theorem Runs.sorted (h : Runs order w xs) (hw : xs.length ≤ w) : Sorted order xs := by
  have hall := h 0 (Nat.dvd_zero w)
  rwa [slice,List.drop_zero,Nat.zero_add,Nat.sub_zero,List.take_of_length_le hw] at hall

/-- What a pass has merged, up to where it stands. -/
structure Passing (order : T → T → ℤ) (xs : List T) (w : ℕ) (target : RawArray T) (state : RawArray T × ℕ) : Prop where
  whole : w * 2 ∣ state.2
  merged : ∃ zs : List T, zs.length = min state.2 xs.length ∧ state.1 = zs.map some ++ target.drop (min state.2 xs.length) ∧
    Arranges order (xs.take state.2) zs ∧ Runs order (w * 2) zs

theorem mergePass_step (rest : RawArray T) (ho : TotalPreorder order) (hw : 0 < w) (hruns : Runs order w xs) (htarget : xs.length ≤ target.length)
    {state : RawArray T × ℕ} (h : Passing order xs w target state) (hlt : state.2 < xs.length) :
    ∃ target', EnsList.mergeRuns (xs.map some ++ rest) state.1 state.2 (min (state.2 + w) xs.length) (min (state.2 + w * 2) xs.length) order =
      .ok target' ∧ Passing order xs w target (target',state.2 + w * 2) := by
  obtain ⟨target',start⟩ := state
  obtain ⟨hwhole,zs,hzs,htarget',harr,hzruns⟩ := h
  dsimp only at hwhole hzs htarget' harr hlt ⊢
  rw [Nat.min_eq_left hlt.le] at hzs htarget'
  have hlen : (zs.map (some : T → Option T)).length = start := by rw [List.length_map,hzs]
  have htake : target'.take start = zs.map some := by rw [htarget',List.take_left' hlen]
  have hdrop : target'.drop (min (start + w * 2) xs.length) = target.drop (min (start + w * 2) xs.length) := by
    rw [htarget',List.drop_append,List.drop_eq_nil_of_le (by rw [hlen]; omega),hlen,List.drop_drop,List.nil_append]
    congr 1
    omega
  have hroom : min (start + w * 2) xs.length ≤ target'.length := by
    rw [htarget',List.length_append,hlen,List.length_drop]
    omega
  have hfirst : Sorted order (slice xs start (min (start + w) xs.length)) := by
    rw [slice_min]
    exact hruns start (Dvd.dvd.trans (Nat.dvd_mul_right w 2) hwhole)
  have hsecond : Sorted order (slice xs (min (start + w) xs.length) (min (start + w * 2) xs.length)) := by
    rw [slice_min]
    rcases le_total (start + w) xs.length with hle | hle
    · rw [Nat.min_eq_left hle,show start + w * 2 = start + w + w by omega]
      exact hruns _ ((Nat.dvd_add_left (Nat.dvd_refl w)).mpr (Dvd.dvd.trans (Nat.dvd_mul_right w 2) hwhole))
    · rw [Nat.min_eq_right hle,slice_past le_rfl]
      exact List.Pairwise.nil
  have hjoin : slice xs start (min (start + w) xs.length) ++ slice xs (min (start + w) xs.length) (min (start + w * 2) xs.length) =
      slice xs start (start + w * 2) := by
    rw [slice_append (by omega) (by omega),slice_min]
  have hlong : (slice xs start (start + w * 2)).length = min (start + w * 2) xs.length - start := by
    rw [← slice_min,length_slice (Nat.min_le_right _ _)]
  refine ⟨_,mergeRuns_ok (by omega) (by omega) (Nat.min_le_right _ _) hroom,(Nat.dvd_add_left (Nat.dvd_refl _)).mpr hwhole,
    zs ++ (slice xs start (min (start + w) xs.length)).merge (slice xs (min (start + w) xs.length) (min (start + w * 2) xs.length))
      (earlier order),?_,?_,?_,?_⟩
  · rw [List.length_append,List.length_merge,← List.length_append,hjoin,hlong,hzs]
    dsimp only
    omega
  · dsimp only
    rw [htake,hdrop,List.map_append]
  · have hsplit : xs.take (start + w * 2) = xs.take start ++ slice xs start (start + w * 2) := by
      rw [slice,Nat.add_sub_cancel_left,List.take_add]
    dsimp only
    rw [hsplit,← hjoin]
    exact harr.append (merge_arranges ho hfirst)
  · refine hzruns.append (hzs ▸ hwhole) (merge_sorted ho hfirst hsecond) ?_
    rw [List.length_merge,← List.length_append,hjoin,hlong]
    omega

/-- A pass leaves the values in runs of twice the width, and the slots past them as they were. -/
theorem mergePass_ok (rest post : RawArray T) {old : RawArray T} {fuel : ℕ} (ho : TotalPreorder order) (hw : 0 < w) (hruns : Runs order w xs)
    (hold : old.length = xs.length) (hfuel : xs.length < fuel) :
    ∃ zs, EnsList.mergePass fuel (xs.map some ++ rest) (old ++ post) xs.length w order = .ok (zs.map some ++ post) ∧
      Arranges order xs zs ∧ Runs order (w * 2) zs := by
  have hroom : xs.length ≤ (old ++ post).length := by
    rw [List.length_append,hold]
    omega
  have hfirst : Passing order xs w (old ++ post) (old ++ post,0) :=
    ⟨Nat.dvd_zero _,[],by simp,by simp,by simpa using Arranges.refl [],fun a _ => by rw [slice_past (Nat.zero_le a)]; exact List.Pairwise.nil⟩
  have hrun : ∃ target, EnsList.mergePass fuel (xs.map some ++ rest) (old ++ post) xs.length w order = .ok target ∧
      ∃ zs : List T, target = zs.map some ++ post ∧ Arranges order xs zs ∧ Runs order (w * 2) zs := by
    refine loop_ok (fun state : RawArray T × ℕ => xs.length - state.2) (fun (target,start) hI => ?_) hfirst (by simpa using hfuel)
    by_cases hlt : start < xs.length
    · right
      obtain ⟨target',hmerge,hnext⟩ := mergePass_step rest ho hw hruns hroom hI hlt
      exact ⟨_,(if_pos hlt).trans (by rw [hmerge,ok_bind]),hnext,by dsimp only; omega⟩
    · left
      obtain ⟨-,zs,hzs,htarget,harr,hzruns⟩ := hI
      dsimp only at hzs htarget harr
      rw [Nat.min_eq_right (not_lt.mp hlt),List.drop_left' hold] at htarget
      rw [List.take_of_length_le (not_lt.mp hlt)] at harr
      exact ⟨_,if_neg hlt,zs,htarget,harr,hzruns⟩
  obtain ⟨target,hpass,zs,rfl,harr,hzruns⟩ := hrun
  exact ⟨zs,hpass,harr,hzruns⟩

/-! ### The sort -/

theorem copied_over (rest : RawArray T) {into : RawArray T} (h : xs.length ≤ into.length) :
    EnsList.copied (xs.map some ++ rest) xs.length into = .ok (xs.map some ++ into.drop xs.length) := by
  obtain ⟨grown,hgrown,rfl⟩ := foldlM_range (n := xs.length) (f := fun grown i => do RawArray.write grown i (← RawArray.read (xs.map some ++ rest) i))
    (I := fun i grown => grown = (xs.take i).map some ++ into.drop i) (b := into) (fun i hi grown hg => by
      have hread : RawArray.read (xs.map some ++ rest) i = .ok xs[i] := read_filled hi
      refine ⟨_,by rw [hread,ok_bind,hg,List.drop_eq_getElem_cons (by omega),RawArray.write_middle (length_map_take hi.le)],?_⟩
      rw [List.take_succ_eq_append_getElem hi,List.map_append,List.append_assoc]
      rfl) (by simp)
  rw [EnsList.copied,hgrown,List.take_length]

theorem Arranges.length (h : Arranges order xs ys) : ys.length = xs.length := h.perm.length_eq

/-- The values in runs of one width, in the list's own store or in the scratch store, and the other store of the same size. -/
structure Sorting (order : T → T → ℤ) (xs : List T) (room : RawArray T) (state : RawArray T × RawArray T × Bool × ℕ) : Prop where
  width : 0 < state.2.2.2
  stores : ∃ (ys : List T) (old : RawArray T), state.1 = ys.map some ++ (if state.2.2.1 then [] else room) ∧
    state.2.1 = old ++ (if state.2.2.1 then room else []) ∧ old.length = xs.length ∧ Arranges order xs ys ∧ Runs order state.2.2.2 ys

theorem Sorting.pass {room source target : RawArray T} {inScratch : Bool} {fuel : ℕ} (ho : TotalPreorder order)
    (h : Sorting order xs room (source,target,inScratch,w)) (hfuel : xs.length < fuel) :
    ∃ merged, EnsList.mergePass fuel source target xs.length w order = .ok merged ∧
      Sorting order xs room (merged,source,!inScratch,w * 2) := by
  obtain ⟨hw,ys,old,hsource,htarget,hold,harr,hruns⟩ := h
  dsimp only at hw hsource htarget hruns
  obtain ⟨zs,hpass,harr',hruns'⟩ := mergePass_ok (if inScratch then [] else room)
    (if inScratch then room else []) ho hw hruns (hold.trans harr.length.symm) (harr.length.trans_lt hfuel)
  refine ⟨zs.map some ++ (if inScratch then room else []),?_,by dsimp only; omega,zs,ys.map some,?_,?_,?_,harr.trans harr',hruns'⟩
  · rw [hsource,htarget,← harr.length,hpass]
  · cases inScratch <;> rfl
  · rw [hsource]
    cases inScratch <;> rfl
  · rw [List.length_map,harr.length]

structure SortedStores (order : T → T → ℤ) (xs : List T) (room : RawArray T) (stores : RawArray T × RawArray T × Bool) : Prop where
  stores : ∃ (ys : List T) (old : RawArray T), stores.1 = ys.map some ++ (if stores.2.2 then [] else room) ∧
    stores.2.1 = old ++ (if stores.2.2 then room else []) ∧ old.length = xs.length ∧ Arranges order xs ys ∧ Sorted order ys

/-- Each pass doubles the width, so the values past it get fewer. -/
theorem sortPasses_ok {order : T → T → ℤ} (ho : TotalPreorder order) {fuel : ℕ} (hfuel : xs.length < fuel) {room : ℕ}
    {state : RawArray T × RawArray T × Bool × ℕ} (hfirst : Sorting order xs (List.replicate room none) state) :
    ∃ r, loop Stop.endless (fun (state : RawArray T × RawArray T × Bool × ℕ) => match state with
      | (source,target,sortedInScratch,width) => if width < xs.length then do
          let merged ← EnsList.mergePass fuel source target xs.length width order
          .ok (.next (merged,source,!sortedInScratch,width * 2))
        else .ok (.done (source,target,sortedInScratch))) fuel state = .ok r ∧ SortedStores order xs (List.replicate room none) r := by
  refine @loop_ok _ _ _ Stop.endless _ fuel _ _ (SortedStores order xs (List.replicate room none)) (fun state => xs.length - state.2.2.2)
    (fun state hI => ?_) hfirst (by omega)
  obtain ⟨source,target,inScratch,width⟩ := state
  by_cases hlt : width < xs.length
  · right
    obtain ⟨merged,hpass,hnext⟩ := hI.pass ho hfuel
    have hwidth := hI.width
    exact ⟨_,(if_pos hlt).trans (by rw [hpass,ok_bind]),hnext,by dsimp only at hwidth ⊢; omega⟩
  · left
    obtain ⟨-,ys,old,hsource,htarget,hold,harr,hruns⟩ := hI
    exact ⟨_,if_neg hlt,ys,old,hsource,htarget,hold,harr,hruns.sorted (by have := harr.length; dsimp only; omega)⟩

/-- The result holds the values of the list in order, those the order calls equal in the places they had among each other. -/
theorem sort_stable (order : T → T → ℤ) (ho : TotalPreorder order) {l : EnsList T} (h : Holds l xs) {fuel : ℕ} (hfuel : xs.length < fuel) :
    ∃ l' ys, l.sort fuel order = .ok l' ∧ Holds l' ys ∧ ys.Perm xs ∧ Sorted order ys ∧
      ∀ x, ys.filter (fun y => order x y = 0) = xs.filter fun y => order x y = 0 := by
  obtain ⟨room,rfl,hlong⟩ := h.room
  rw [EnsList.sort]
  split_ifs with hcount
  · have hone : Runs order 1 xs := Runs.one xs
    exact ⟨_,xs,rfl,h,.refl _,hone.sorted (by dsimp only at hcount; omega),fun _ => rfl⟩
  · have hfirst : Sorting order xs (List.replicate room none) (filled xs room,RawArray.allocate xs.length,false,1) :=
      ⟨Nat.one_pos,xs,List.replicate xs.length none,rfl,by simp [RawArray.allocate],List.length_replicate,Arranges.refl xs,Runs.one xs⟩
    obtain ⟨⟨source,target,inScratch⟩,hloop,ys,old,hsource,htarget,hold,harr,hsorted⟩ := sortPasses_ok ho hfuel hfirst
    dsimp only at hsource htarget
    have hholds : Holds ⟨filled ys room,xs.length⟩ ys := by
      rw [← harr.length]
      exact holds_filled (harr.length ▸ hlong)
    refine ⟨_,ys,?_,hholds,harr.perm,hsorted,harr.stable⟩
    rw [filled] at hloop ⊢
    rw [hloop,ok_bind]
    cases inScratch with
    | false => rw [hsource]; rfl
    | true =>
      rw [if_pos rfl] at hsource htarget
      have hroom : ys.length ≤ target.length := by
        rw [htarget,List.length_append,hold,harr.length]
        exact Nat.le_add_right _ _
      have hcopied := copied_over [] hroom
      rw [← hsource,harr.length,htarget,List.drop_left' hold] at hcopied
      dsimp only
      rw [if_pos rfl,htarget,hcopied,ok_bind]
      rfl

def tied : List (ℤ × Bool) := [(2,true),(1,true),(2,false)]

def byFirst (x y : ℤ × Bool) : ℤ := x.1 - y.1

theorem sort_stable_tied : ∃ l' ys, (⟨filled tied 0,tied.length⟩ : EnsList (ℤ × Bool)).sort 4 byFirst = .ok l' ∧ Holds l' ys ∧
    ys.Perm tied ∧ Sorted byFirst ys ∧ ∀ x, ys.filter (fun y => byFirst x y = 0) = tied.filter fun y => byFirst x y = 0 :=
  sort_stable byFirst ⟨fun a b => by simp only [byFirst]; omega,fun a b c => by simp only [byFirst]; omega⟩
    (holds_filled (by rw [tied]; decide)) (by rw [tied]; decide)

end Ens.Collections.ListStore
