import Ens.Number.Magnitude
import Ens.Number.Spelling

/-! # The double a text spells

The long way reads the digits of a text into the buffer and cuts its exponent short; the short way
keeps a mantissa and a power of ten that are exact.
-/
set_option linter.all false
namespace Ens.Number
open Decimal Rounding
variable {D l : List ℕ} {r : Reading} {d f : ℕ}

/-! ### The long way -/

def zeros (D : List ℕ) : ℕ := (D.takeWhile fun x => decide (x = 0)).length

def core (D : List ℕ) : List ℕ := D.dropWhile fun x => decide (x = 0)

theorem magnitude_core (D : List ℕ) (point : ℤ) : magnitude D point = magnitude (core D) (point - zeros D) := by
  conv_lhs => rw [zeros_split D]
  exact magnitude_zeros_append _ _ _

theorem core_small (h : AreDigits D) : AreDigits (core D) := fun x hx => h x (List.dropWhile_subset _ hx)

theorem core_cons {x : ℕ} (h : core D = x :: l) : x ≠ 0 := by
  intro h0
  have := List.head?_dropWhile_not (fun x => decide (x = 0)) D
  rw [show D.dropWhile (fun x => decide (x = 0)) = x :: l from h] at this
  simp [h0] at this

theorem core_concat_nil (h : core D = []) (d : ℕ) :
    core (D ++ [d]) = (if d = 0 then [] else [d]) ∧ zeros (D ++ [d]) = if d = 0 then zeros D + 1 else zeros D := by
  have hz : ∀ x ∈ D, decide (x = 0) = true := List.dropWhile_eq_nil_iff.mp h
  rw [core,zeros,zeros,List.dropWhile_append_of_pos hz,List.takeWhile_append_of_pos hz,List.takeWhile_eq_self_iff.mpr hz]
  by_cases h0 : d = 0 <;> simp [h0]

theorem core_concat_cons (h : core D ≠ []) (d : ℕ) : core (D ++ [d]) = core D ++ [d] ∧ zeros (D ++ [d]) = zeros D := by
  constructor
  · rw [core,List.dropWhile_append,← core]
    simp [h]
  · have hlen := congrArg List.length (List.takeWhile_append_dropWhile (p := fun x => decide (x = 0)) (l := D))
    have hpos := List.length_pos_of_ne_nil h
    rw [List.length_append] at hlen
    rw [zeros,zeros,List.takeWhile_append,if_neg]
    rw [core] at hpos
    omega

structure Reading.Holds (r : Reading) (seenPoint : Bool) (D : List ℕ) (f : ℕ) : Prop where
  any : r.anyDigit = true ↔ core D ≠ []
  held : r.digits.held = (core D).take Bounds.capacity
  cut : r.digits.truncated = ((core D).drop Bounds.capacity).any fun y => decide (y ≠ 0)
  point : r.digits.point - r.leadingZeros = D.length - f - zeros D
  seenPoint : r.seenPoint = seenPoint
  inExponent : r.inExponent = false
  negative : r.exponentNegative = false
  exponent : r.exponent = 0

theorem append_held (d : Digits) (h : d.held = l.take Bounds.capacity) (x : ℕ) :
    (d.append x).held = (l ++ [x]).take Bounds.capacity := by
  by_cases hfull : Bounds.capacity ≤ l.length
  · have hcount : Bounds.capacity ≤ d.count := by rw [Digits.count,h,List.length_take]; omega
    rw [Digits.append,if_pos hcount,List.take_append_of_le_length hfull,← h]
    split <;> rfl
  · have hcount : ¬Bounds.capacity ≤ d.count := by rw [Digits.count,h,List.length_take]; omega
    rw [Digits.append,if_neg hcount,h,List.take_of_length_le (by omega),List.take_of_length_le (by simp; omega)]

theorem append_truncated (d : Digits) (h : d.held = l.take Bounds.capacity)
    (hcut : d.truncated = (l.drop Bounds.capacity).any fun y => decide (y ≠ 0)) (x : ℕ) :
    (d.append x).truncated = ((l ++ [x]).drop Bounds.capacity).any fun y => decide (y ≠ 0) := by
  by_cases hfull : Bounds.capacity ≤ l.length
  · have hcount : Bounds.capacity ≤ d.count := by rw [Digits.count,h,List.length_take]; omega
    rw [Digits.append,if_pos hcount,List.drop_append_of_le_length hfull,List.any_append,← hcut]
    by_cases hx : x = 0 <;> simp [hx]
  · have hcount : ¬Bounds.capacity ≤ d.count := by rw [Digits.count,h,List.length_take]; omega
    rw [Digits.append,if_neg hcount,List.drop_of_length_le (by simp; omega)]
    rw [List.drop_of_length_le (by omega)] at hcut
    exact hcut

@[simp] theorem append_point (d : Digits) (x : ℕ) : (d.append x).point = d.point := by
  unfold Digits.append
  split <;> [split; skip] <;> rfl

theorem Reading.significant_seen (r : Reading) (d : ℕ) : (r.significant d).seenPoint = r.seenPoint ∧
    (r.significant d).inExponent = r.inExponent ∧ (r.significant d).exponentNegative = r.exponentNegative ∧
      (r.significant d).exponent = r.exponent := by
  unfold Reading.significant
  split <;> [split; skip] <;> exact ⟨rfl,rfl,rfl,rfl⟩

theorem Reading.Holds.leading {p : Bool} (h : r.Holds p D f) (hz : core D = []) :
    (r.significant 0).Holds p (D ++ [0]) (if p then f + 1 else f) := by
  obtain ⟨h1,h2,h3,h4⟩ := r.significant_seen 0
  obtain ⟨hcore,hzeros⟩ := core_concat_nil hz 0
  have hany : r.anyDigit = false := by
    rw [Bool.eq_false_iff]
    exact fun h' => h.any.mp h' hz
  have heq : r.significant 0 = if r.seenPoint then { r with leadingZeros := r.leadingZeros + 1 } else r :=
    if_pos ⟨hany,rfl⟩
  have hpoint := h.point
  have hheld := h.held
  have hcut := h.cut
  rw [if_pos rfl] at hcore hzeros
  rw [hz] at hheld hcut
  refine ⟨?_,?_,?_,?_,h1.trans h.seenPoint,h2.trans h.inExponent,h3.trans h.negative,h4.trans h.exponent⟩
  · rw [hcore,heq]
    cases hs : r.seenPoint <;> simp [hany]
  · rw [hcore,heq]
    cases hs : r.seenPoint <;> exact hheld
  · rw [hcore,heq]
    cases hs : r.seenPoint <;> exact hcut
  · rw [heq,hzeros,List.length_append,List.length_singleton,← h.seenPoint]
    cases hs : r.seenPoint
    · simp only [Bool.false_eq_true,if_false]
      omega
    · simp only [if_true]
      omega

theorem Reading.Holds.joins {p : Bool} (h : r.Holds p D f) (hd : ¬(core D = [] ∧ d = 0)) :
    (r.significant d).Holds p (D ++ [d]) (if p then f + 1 else f) := by
  obtain ⟨h1,h2,h3,h4⟩ := r.significant_seen d
  obtain ⟨hcore,hzeros⟩ : core (D ++ [d]) = core D ++ [d] ∧ zeros (D ++ [d]) = zeros D := by
    by_cases hz : core D = []
    · have h0 : d ≠ 0 := fun h0 => hd ⟨hz,h0⟩
      have := core_concat_nil hz d
      rw [if_neg h0,if_neg h0] at this
      rw [hz]
      exact this
    · exact core_concat_cons hz d
  have hany : ¬(r.anyDigit = false ∧ d = 0) := by
    rintro ⟨h',h0⟩
    rw [Bool.eq_false_iff] at h'
    exact h' (h.any.mpr fun hz => hd ⟨hz,h0⟩)
  have heq : r.significant d = { r with anyDigit := true, digits := if r.seenPoint then r.digits.append d
    else { r.digits.append d with point := (r.digits.append d).point + 1 } } := if_neg hany
  have hpoint := h.point
  have hheld := append_held r.digits h.held d
  have hcut := append_truncated r.digits h.held h.cut d
  refine ⟨?_,?_,?_,?_,h1.trans h.seenPoint,h2.trans h.inExponent,h3.trans h.negative,h4.trans h.exponent⟩
  · rw [hcore,heq]
    simp
  · rw [hcore,heq]
    cases hs : r.seenPoint <;> exact hheld
  · rw [hcore,heq]
    cases hs : r.seenPoint <;> exact hcut
  · rw [heq,hzeros,List.length_append,List.length_singleton,← h.seenPoint]
    cases hs : r.seenPoint
    · simp only [Bool.false_eq_true,if_false,append_point]
      omega
    · simp only [if_true,append_point]
      omega

theorem Reading.Holds.digit {p : Bool} (h : r.Holds p D f) (d : ℕ) :
    (r.significant d).Holds p (D ++ [d]) (if p then f + 1 else f) := by
  by_cases hd : core D = [] ∧ d = 0
  · obtain ⟨hz,rfl⟩ := hd
    exact h.leading hz
  · exact h.joins hd

/-! ### Bytes read one after the other -/

theorem next_digit (r : Reading) (hd : d < 10) : r.next ('0'.toNat + d) =
    if r.inExponent then
      if r.exponent < Bounds.exponentLimit * 4 then { r with exponent := r.exponent * 10 + d } else r
    else r.significant d := by
  have hdigit := isDigit_add hd
  have hmark : isExponentMark ('0'.toNat + d) = false := by
    simp only [isExponentMark,Bool.or_eq_false_iff,decide_eq_false_iff_not,Char.reduceToNat]
    omega
  have h1 : ¬('0'.toNat + d = '_'.toNat ∨ '0'.toNat + d = 'f'.toNat ∨ '0'.toNat + d = 'F'.toNat ∨ '0'.toNat + d = 'd'.toNat ∨
      '0'.toNat + d = 'D'.toNat ∨ '0'.toNat + d = '+'.toNat) := by
    simp only [Char.reduceToNat]
    omega
  have h2 : '0'.toNat + d ≠ '-'.toNat := by simp only [Char.reduceToNat]; omega
  have h3 : '0'.toNat + d ≠ '.'.toNat := by simp only [Char.reduceToNat]; omega
  rw [Reading.next,if_neg h1,if_neg h2,if_neg h3,if_neg (Bool.eq_false_iff.mp hmark),if_neg (by rw [hdigit]; rintro ⟨⟩)]
  dsimp only
  rw [Nat.add_sub_cancel_left]

theorem Reading.Holds.digits {p : Bool} (hl : AreDigits l) (h : r.Holds p D f) :
    ((digitBytes l).foldl Reading.next r).Holds p (D ++ l) (if p then f + l.length else f) := by
  induction l generalizing r D f with
  | nil => simpa [digitBytes] using h
  | cons d l ih =>
    have hnext := next_digit r (hl d (List.mem_cons_self ..))
    rw [h.inExponent,if_neg Bool.false_ne_true] at hnext
    have hrest := ih (fun x hx => hl x (List.mem_cons_of_mem _ hx)) (h.digit d)
    rw [List.append_assoc,List.singleton_append] at hrest
    rw [digitBytes,List.map_cons,List.foldl_cons,hnext,List.length_cons]
    cases p with
    | false => exact hrest
    | true =>
      rw [if_pos rfl,if_pos rfl] at hrest
      rw [if_pos rfl,Nat.add_comm l.length,← Nat.add_assoc]
      exact hrest

def cutExponent (digits : List ℕ) : ℕ :=
  digits.foldl (fun n d => if n < Bounds.exponentLimit * 4 then n * 10 + d else n) 0

theorem exponent_digits (hl : AreDigits l) (h : r.inExponent = true) : (digitBytes l).foldl Reading.next r =
    { r with exponent := l.foldl (fun n d => if n < Bounds.exponentLimit * 4 then n * 10 + d else n) r.exponent } := by
  induction l generalizing r with
  | nil => rfl
  | cons d l ih =>
    have hnext := next_digit r (hl d (List.mem_cons_self ..))
    rw [if_pos h] at hnext
    rw [digitBytes,List.map_cons,List.foldl_cons,hnext,← digitBytes,List.foldl_cons]
    have hl' : AreDigits l := fun x hx => hl x (List.mem_cons_of_mem _ hx)
    split
    · exact ih (r := { r with exponent := r.exponent * 10 + d }) hl' h
    · exact ih hl' h

theorem exponent_read {p : Bool} (h : r.Holds p D f) (e : Scientific) : (e.bytes.foldl Reading.next r) =
    { r with inExponent := true, exponentNegative := decide (e.sign = some .minus), exponent := cutExponent e.digits } := by
  have hmark : r.next e.mark = { r with inExponent := true } := by
    have := e.marks
    simp only [isExponentMark,Bool.or_eq_true,decide_eq_true_eq] at this
    rcases this with hm | hm <;> rw [hm] <;> rfl
  have hsign : (signBytes e.sign).foldl Reading.next { r with inExponent := true } =
      { r with inExponent := true, exponentNegative := decide (e.sign = some .minus) } := by
    have hneg := h.negative
    rcases e.sign with _ | _ | _
    · simp [signBytes,← hneg]
    · simp only [signBytes,Option.map_some,Option.toList_some,List.foldl_cons,List.foldl_nil]
      rw [show decide (some Sign.plus = some Sign.minus) = false by rfl,← hneg]
      rfl
    · rfl
  rw [Scientific.bytes,List.foldl_cons,hmark,List.foldl_append,hsign,exponent_digits e.small rfl]
  dsimp only
  rw [h.exponent]
  rfl

namespace Spelling

def cutScale (sp : Spelling) : ℤ := (sp.exponent.map fun e => e.signed (cutExponent e.digits)).getD 0

theorem mantissa_holds (sp : Spelling) :
    ((digitBytes sp.whole ++ pointBytes sp.fraction).foldl Reading.next {}).Holds (decide (sp.fraction ≠ []))
      (sp.whole ++ sp.fraction) sp.fraction.length := by
  have h0 : Reading.Holds {} false [] 0 := ⟨by simp [core],rfl,rfl,rfl,rfl,rfl,rfl,rfl⟩
  have h1 := h0.digits sp.wholeSmall
  rw [List.nil_append,if_neg Bool.false_ne_true] at h1
  rw [List.foldl_append]
  by_cases hf : sp.fraction = []
  · rw [pointBytes,if_pos hf,hf]
    simpa using h1
  · rw [pointBytes,if_neg hf,List.foldl_cons]
    have hpoint : Reading.Holds (((digitBytes sp.whole).foldl Reading.next {}).next '.'.toNat) true sp.whole 0 := by
      obtain ⟨h1,h2,h3,h4,h5,h6,h7,h8⟩ := h1
      exact ⟨h1,h2,h3,h4,rfl,h6,h7,h8⟩
    have := hpoint.digits sp.fractionSmall
    rw [if_pos rfl,Nat.zero_add] at this
    rw [decide_eq_true hf]
    exact this

/-- The long way keeps the digits from the first that is not a zero, cut where the buffer is full. -/
theorem read_spelled (sp : Spelling) : read sp.spelled sp.start =
    Digits.normalize ⟨(core (sp.whole ++ sp.fraction)).take Bounds.capacity,
      sp.whole.length + sp.cutScale - zeros (sp.whole ++ sp.fraction),
      ((core (sp.whole ++ sp.fraction)).drop Bounds.capacity).any fun y => decide (y ≠ 0)⟩ := by
  have hdrop : sp.spelled.bytes.drop sp.start = digitBytes sp.whole ++ (pointBytes sp.fraction ++ exponentBytes sp.exponent) :=
    List.drop_left
  have h := sp.mantissa_holds
  have hpoint := h.point
  rw [read,hdrop,← List.append_assoc,List.foldl_append]
  generalize (digitBytes sp.whole ++ pointBytes sp.fraction).foldl Reading.next {} = r at h hpoint ⊢
  rw [List.length_append] at hpoint
  congr 1
  rw [← h.held,← h.cut,cutScale]
  cases he : sp.exponent with
  | none =>
    simp only [exponentBytes,Option.map_none,Option.getD_none,List.foldl_nil,h.negative,h.exponent,Bool.false_eq_true,
      if_false,Digits.mk.injEq,true_and,and_true]
    omega
  | some e =>
    have hexp := exponent_read h e
    simp only [exponentBytes,Option.map_some,Option.getD_some,hexp,Scientific.signed,decide_eq_true_eq,
      Digits.mk.injEq,true_and,and_true]
    omega

theorem magnitudeStart_spelled (sp : Spelling) : magnitudeStart sp.spelled = sp.start := by
  have h0 : Rest sp.spelled 0 sp.bytes := ⟨Nat.zero_add _,List.drop_zero⟩
  have h1 := (Rest.sign h0 sp.nonempty sp.wholeSmall).1
  rw [zero_add] at h1
  have h2 : sp.start + (digitBytes sp.whole ++ (pointBytes sp.fraction ++ exponentBytes sp.exponent)).length =
      sp.spelled.length := (List.length_append ..).symm
  exact Nat.add_right_cancel (h1.trans h2.symm)

theorem valueAt_core (sp : Spelling) (exponent : ℤ) : sp.valueAt exponent =
    magnitude (core (sp.whole ++ sp.fraction)) (sp.whole.length + exponent - zeros (sp.whole ++ sp.fraction)) :=
  magnitude_core _ _

theorem digits_small (sp : Spelling) : AreDigits (sp.whole ++ sp.fraction) := fun d hd =>
  (List.mem_append.mp hd).elim (sp.wholeSmall d) (sp.fractionSmall d)

end Spelling

theorem normalize_nil (point : ℤ) (t : Bool) : Digits.normalize ⟨[],point,t⟩ = ⟨[],0,false⟩ := rfl

theorem normalize_cons {x : ℕ} (hx : x ≠ 0) (point : ℤ) (t : Bool) :
    ∃ held, held ≠ [] ∧ Digits.normalize ⟨x :: l,point,t⟩ = ⟨held,point,t⟩ := by
  have hdrop : (x :: l).dropWhile (fun x => decide (x = 0)) = x :: l := List.dropWhile_cons_of_neg (by simp [hx])
  have htake : (x :: l).takeWhile (fun x => decide (x = 0)) = [] := List.takeWhile_cons_of_neg (by simp [hx])
  have hne : (x :: l).rdropWhile (fun x => decide (x = 0)) ≠ [] := by
    intro h
    exact hx (by simpa using List.rdropWhile_eq_nil_iff.mp h x (List.mem_cons_self ..))
  refine ⟨_,hne,?_⟩
  rw [Digits.normalize]
  dsimp only
  rw [hdrop,htake,if_neg hne]
  simp

theorem filled_follows {x : ℕ} {T : ℚ} {S point : ℤ} (hl : AreDigits (x :: l)) (hx : x ≠ 0)
    (hT : T = magnitude (x :: l) point) (hS : Scale T S) (hp : point ≤ 400) :
    Digits.Follows ⟨(x :: l).take Bounds.capacity,point,((x :: l).drop Bounds.capacity).any fun y => decide (y ≠ 0)⟩ T S := by
  by_cases hlen : (x :: l).length ≤ Bounds.capacity
  · rw [List.take_of_length_le hlen,List.drop_of_length_le hlen]
    refine ⟨hl,hlen,⟨x,List.mem_cons_self ..,hx⟩,hT.ge,?_,?_⟩
    · simp [Digits.value,hT]
    · rw [Digits.value,← hT]
      exact same_refl _ _
  · have hroom : point + S + 1 ≤ 780 := by
      refine room hS.least (lt_of_le_of_lt ?_ hS.below)
      rw [hT]
      exact mul_le_mul_of_nonneg_right (magnitude_ge hx _) (two_pow_pos S).le
    have hcap : (Bounds.capacity : ℤ) = 800 := rfl
    have h := (Digits.cut_follows (t := false) (s := S) hl hx hT.ge (by simp [hT])
      (by rw [← hT]; exact same_refl _ _) (show 0 < Bounds.capacity by decide) (by omega) (le_refl _) (by omega) (by omega)).1
    rwa [Bool.false_or] at h

theorem magnitudeOf_read (sp : Spelling) :
    ∃ r, magnitudeOf (read sp.spelled sp.start) = .ok r ∧ NearestDouble (sp.valueAt sp.cutScale) r.denote := by
  have hvalue := sp.valueAt_core sp.cutScale
  have hsmall := core_small sp.digits_small
  rw [sp.read_spelled]
  set point := (sp.whole.length : ℤ) + sp.cutScale - zeros (sp.whole ++ sp.fraction)
  cases hc : core (sp.whole ++ sp.fraction) with
  | nil =>
    rw [hc,magnitude,number_nil,Nat.cast_zero,zero_mul] at hvalue
    rw [hvalue,List.take_nil,List.drop_nil,normalize_nil]
    exact ⟨_,rfl,nearestDouble_zero (le_refl _) (two_pow_pos _).le⟩
  | cons x l =>
    have hx := core_cons hc
    rw [hc] at hvalue hsmall
    obtain ⟨k,hk⟩ : ∃ k, Bounds.capacity = k + 1 := ⟨799,rfl⟩
    have htake : (x :: l).take Bounds.capacity = x :: l.take k := by rw [hk,List.take_succ_cons]
    obtain ⟨held,hne,hnorm⟩ := normalize_cons (l := l.take k) hx point
      (((x :: l).drop Bounds.capacity).any fun y => decide (y ≠ 0))
    rw [hvalue]
    refine magnitudeOf_nearest (magnitude_pos hx _) ?_ ?_ ?_ fun hp S hS => ?_
    · rw [htake,hnorm]
      exact hne
    · rw [htake,hnorm]
      exact magnitude_ge hx _
    · rw [htake,hnorm]
      exact magnitude_lt hsmall _
    · rw [htake,hnorm] at hp
      exact Digits.normalize_tracks (filled_follows hsmall hx rfl hS hp)

/-! ### The short way -/

structure Short.Holds (s : Short) (seenPoint : Bool) (D : List ℕ) (f : ℕ) : Prop where
  mantissa : s.mantissa = number D
  exact : s.mantissa ≤ Bounds.exactMantissa
  fractionDigits : s.fractionDigits = f
  seenPoint : s.seenPoint = seenPoint
  inExponent : s.inExponent = false
  negative : s.exponentNegative = false
  exponent : s.exponent = 0

variable {s s' : Short} {ceiling : ℕ}

theorem short_digit (s : Short) (hd : d < 10) : s.next ceiling ('0'.toNat + d) =
    if s.inExponent then
      if ceiling < s.exponent then none else some { s with exponent := s.exponent * 10 + d }
    else if Bounds.exactMantissa / 10 < s.mantissa
        ∨ (s.mantissa = Bounds.exactMantissa / 10 ∧ Bounds.exactMantissa % 10 < d) then none
    else some { s with mantissa := s.mantissa * 10 + d,
                       fractionDigits := if s.seenPoint then s.fractionDigits + 1 else s.fractionDigits } := by
  rw [Short.next,if_pos (isDigit_add hd)]
  dsimp only
  rw [Nat.add_sub_cancel_left]

theorem Short.Holds.digit {p : Bool} (hd : d < 10) (h : s.Holds p D f) (hs : s.next ceiling ('0'.toNat + d) = some s') :
    s'.Holds p (D ++ [d]) (if p then f + 1 else f) := by
  rw [short_digit s hd,if_neg (by rw [h.inExponent]; exact nofun)] at hs
  split at hs
  · cases hs
  rename_i hroom
  obtain rfl := Option.some.inj hs
  refine ⟨?_,?_,?_,h.seenPoint,h.inExponent,h.negative,h.exponent⟩
  · rw [number_concat,← h.mantissa]
  · simp only [Bounds.exactMantissa] at hroom ⊢
    omega
  · simp only [h.seenPoint,h.fractionDigits]

theorem Short.Holds.digits {p : Bool} (hl : AreDigits l) (h : s.Holds p D f)
    (hs : (digitBytes l).foldlM (Short.next ceiling) s = some s') :
    s'.Holds p (D ++ l) (if p then f + l.length else f) := by
  induction l generalizing s D f with
  | nil =>
    obtain rfl : s = s' := Option.some.inj hs
    simpa using h
  | cons d l ih =>
    rw [digitBytes,List.map_cons,List.foldlM_cons] at hs
    obtain ⟨t,ht,hs⟩ := Option.bind_eq_some_iff.mp hs
    have hnext := h.digit (hl d (List.mem_cons_self ..)) ht
    have hrest := ih (fun x hx => hl x (List.mem_cons_of_mem _ hx)) hnext hs
    rw [List.append_assoc,List.singleton_append] at hrest
    rw [List.length_cons]
    cases p with
    | false => exact hrest
    | true =>
      rw [if_pos rfl,if_pos rfl] at hrest
      rw [if_pos rfl,Nat.add_comm l.length,← Nat.add_assoc]
      exact hrest

theorem short_exponent (hl : AreDigits l) (h : s.inExponent = true)
    (hs : (digitBytes l).foldlM (Short.next ceiling) s = some s') :
    s' = { s with exponent := l.foldl (fun n d => n * 10 + d) s.exponent } := by
  induction l generalizing s with
  | nil => exact (Option.some.inj hs).symm
  | cons d l ih =>
    rw [digitBytes,List.map_cons,List.foldlM_cons] at hs
    obtain ⟨t,ht,hs⟩ := Option.bind_eq_some_iff.mp hs
    rw [short_digit s (hl d (List.mem_cons_self ..)),if_pos h] at ht
    split at ht
    · cases ht
    obtain rfl := Option.some.inj ht
    exact ih (s := { s with exponent := s.exponent * 10 + d }) (fun x hx => hl x (List.mem_cons_of_mem _ hx)) h hs

theorem exponent_short {p : Bool} (h : s.Holds p D f) (e : Scientific)
    (hs : e.bytes.foldlM (Short.next ceiling) s = some s') : s' =
      { s with inExponent := true, exponentNegative := decide (e.sign = some .minus), exponent := number e.digits } := by
  have hmark : s.next ceiling e.mark = some { s with inExponent := true } := by
    have := e.marks
    simp only [isExponentMark,Bool.or_eq_true,decide_eq_true_eq] at this
    rcases this with hm | hm <;> rw [hm] <;> rfl
  have hsign : (signBytes e.sign).foldlM (Short.next ceiling) { s with inExponent := true } =
      some { s with inExponent := true, exponentNegative := decide (e.sign = some .minus) } := by
    have hneg := h.negative
    rcases e.sign with _ | _ | _
    · simp [signBytes,← hneg]
    · rw [show decide (some Sign.plus = some Sign.minus) = false by rfl,← hneg]
      rfl
    · rfl
  rw [Scientific.bytes,List.foldlM_cons,hmark] at hs
  dsimp only [Option.bind_eq_bind,Option.bind_some] at hs
  rw [List.foldlM_append,hsign] at hs
  have := short_exponent e.small rfl hs
  rw [this]
  dsimp only
  rw [h.exponent]
  rfl

theorem shortMagnitude_exact (sp : Spelling) {m : ℕ} {e : ℤ} (h : shortMagnitude sp.spelled sp.start = some (m,e)) :
    m ≤ 2 ^ 53 ∧ |e| ≤ 22 ∧ (m : ℚ) * 10 ^ e = sp.value := by
  have hdrop : sp.spelled.bytes.drop sp.start = digitBytes sp.whole ++ (Spelling.pointBytes sp.fraction ++
    Spelling.exponentBytes sp.exponent) := List.drop_left
  rw [shortMagnitude,hdrop] at h
  obtain ⟨s,hs,h⟩ := Option.bind_eq_some_iff.mp h
  rw [← List.append_assoc,List.foldlM_append] at hs
  obtain ⟨t,ht,hs⟩ := Option.bind_eq_some_iff.mp hs
  -- The digits of the mantissa, with a point among them or without.
  have hheld : t.Holds (decide (sp.fraction ≠ [])) (sp.whole ++ sp.fraction) sp.fraction.length := by
    have h0 : Short.Holds {} false [] 0 := ⟨rfl,by decide,rfl,rfl,rfl,rfl,rfl⟩
    rw [List.foldlM_append] at ht
    obtain ⟨u,hu,ht⟩ := Option.bind_eq_some_iff.mp ht
    have h1 := h0.digits sp.wholeSmall hu
    rw [List.nil_append,if_neg Bool.false_ne_true] at h1
    by_cases hf : sp.fraction = []
    · rw [Spelling.pointBytes,if_pos hf] at ht
      obtain rfl : u = t := Option.some.inj ht
      rw [hf]
      simpa using h1
    · rw [Spelling.pointBytes,if_neg hf,List.foldlM_cons] at ht
      obtain ⟨v,hv,ht⟩ := Option.bind_eq_some_iff.mp ht
      obtain rfl : { u with seenPoint := true } = v := Option.some.inj hv
      have hpoint : Short.Holds { u with seenPoint := true } true sp.whole 0 := by
        obtain ⟨h1,h2,h3,h4,h5,h6,h7⟩ := h1
        exact ⟨h1,h2,h3,rfl,h5,h6,h7⟩
      have := hpoint.digits sp.fractionSmall ht
      rw [if_pos rfl,Nat.zero_add] at this
      rw [decide_eq_true hf]
      exact this
  have hexp : (if s.exponentNegative then -(s.exponent : ℤ) else s.exponent) = sp.scale ∧
      s.mantissa = t.mantissa ∧ s.fractionDigits = t.fractionDigits := by
    rw [Spelling.scale]
    cases he : sp.exponent with
    | none =>
      rw [he] at hs
      obtain rfl : t = s := Option.some.inj hs
      simp [hheld.negative,hheld.exponent]
    | some x =>
      rw [he] at hs
      rw [exponent_short hheld x hs]
      simp [Scientific.signed]
  obtain ⟨hexp,hm,hf⟩ := hexp
  dsimp only at h
  rw [hexp,hm,hf,hheld.fractionDigits] at h
  split at h
  · cases h
  rename_i hrange
  obtain ⟨rfl,rfl⟩ := Prod.mk.inj (Option.some.inj h)
  have hexact := hheld.exact
  simp only [Bounds.exactMantissa,Bounds.exactPowerOfTen] at hexact hrange
  refine ⟨by omega,abs_le.mpr (by omega),?_⟩
  rw [Spelling.value,Spelling.valueAt,magnitude,hheld.mantissa,List.length_append]
  congr 2
  push_cast
  ring

/-! ### The exponent cut short -/

theorem cutExponent_from (hl : AreDigits l) {n : ℕ} (hn : n < 16000) :
    n ≤ l.foldl (fun n d => if n < Bounds.exponentLimit * 4 then n * 10 + d else n) n ∧
    l.foldl (fun n d => if n < Bounds.exponentLimit * 4 then n * 10 + d else n) n < 16000 ∧
      (l.foldl (fun n d => if n < Bounds.exponentLimit * 4 then n * 10 + d else n) n = l.foldl (fun n d => n * 10 + d) n ∨
        10 * l.foldl (fun n d => if n < Bounds.exponentLimit * 4 then n * 10 + d else n) n ≤ l.foldl (fun n d => n * 10 + d) n ∧
        1600 ≤ l.foldl (fun n d => if n < Bounds.exponentLimit * 4 then n * 10 + d else n) n) := by
  induction l generalizing n with
  | nil => exact ⟨le_refl _,hn,.inl rfl⟩
  | cons d l ih =>
    have hl' : AreDigits l := fun x hx => hl x (List.mem_cons_of_mem _ hx)
    have hd := hl d (List.mem_cons_self ..)
    have hlimit : Bounds.exponentLimit * 4 = 1600 := rfl
    rw [List.foldl_cons,List.foldl_cons]
    by_cases hlt : n < Bounds.exponentLimit * 4
    · rw [if_pos hlt]
      obtain ⟨h1,h2⟩ := ih hl' (n := n * 10 + d) (by omega)
      exact ⟨by omega,h2⟩
    · have hstop : ∀ l : List ℕ, l.foldl (fun n d => if n < Bounds.exponentLimit * 4 then n * 10 + d else n) n = n := by
        intro l
        induction l with
        | nil => rfl
        | cons d l ih => rw [List.foldl_cons,if_neg hlt,ih]
      have hmore : n * 10 + d ≤ l.foldl (fun n d => n * 10 + d) (n * 10 + d) := by
        rw [foldl_number]
        exact (Nat.le_mul_of_pos_right _ (by positivity)).trans (Nat.le_add_right _ _)
      rw [if_neg hlt,hstop]
      exact ⟨le_refl _,hn,.inr ⟨by omega,by omega⟩⟩

theorem cutExponent_spec (hl : AreDigits l) : cutExponent l < 16000 ∧
    (cutExponent l = number l ∨ 10 * cutExponent l ≤ number l ∧ 1600 ≤ cutExponent l) :=
  (cutExponent_from hl (by omega)).2

namespace Spelling

/-- The exponent spelled is one the long way reads whole. -/
def ShortExponent (sp : Spelling) : Prop := ∀ e, sp.exponent = some e → number e.digits < 16000

/-- Past the largest double by half a unit and more. -/
def Overflows (v : ℚ) : Prop := (2 ^ 53 - 1 / 2) * 2 ^ (971 : ℤ) ≤ v

/-- At most half the least subnormal. -/
def Underflows (v : ℚ) : Prop := v ≤ 2 ^ (-1075 : ℤ)

theorem cutScale_eq {sp : Spelling} (h : sp.ShortExponent) : sp.cutScale = sp.scale := by
  rw [cutScale,scale]
  cases he : sp.exponent with
  | none => rfl
  | some e =>
    have hlt := h e he
    rcases (cutExponent_spec e.small).2 with heq | ⟨h1,h2⟩
    · simp [heq]
    · omega

theorem cutScale_far {sp : Spelling} (h : ¬sp.ShortExponent) :
    sp.cutScale + 1 ≤ sp.scale ∨ sp.scale + 1 ≤ sp.cutScale := by
  simp only [ShortExponent,not_forall,not_lt] at h
  obtain ⟨e,he,hlarge⟩ := h
  obtain ⟨hcut,h2⟩ := cutExponent_spec e.small
  rw [cutScale,scale,he]
  simp only [Option.map_some,Option.getD_some,Scientific.signed]
  split <;> omega

theorem valueAt_nonneg (sp : Spelling) (x : ℤ) : 0 ≤ sp.valueAt x := magnitude_nonneg _ _

theorem valueAt_ten (sp : Spelling) {x y : ℤ} (h : x + 1 ≤ y) : 10 * sp.valueAt x ≤ sp.valueAt y := by
  rw [valueAt,valueAt,magnitude,magnitude]
  set n := number (sp.whole ++ sp.fraction)
  have hpow : (10 : ℚ) * 10 ^ (sp.whole.length + x - (sp.whole ++ sp.fraction).length) ≤
      10 ^ (sp.whole.length + y - (sp.whole ++ sp.fraction).length) := by
    rw [mul_comm,← zpow_add_one₀ (by norm_num)]
    exact ten_pow_le (by omega)
  calc 10 * ((n : ℚ) * 10 ^ (sp.whole.length + x - (sp.whole ++ sp.fraction).length))
      = n * (10 * 10 ^ (sp.whole.length + x - (sp.whole ++ sp.fraction).length)) := by ring
    _ ≤ _ := mul_le_mul_of_nonneg_left hpow (Nat.cast_nonneg _)

end Spelling

theorem nearest_zero_iff {v : ℚ} (h0 : 0 ≤ v) :
    Nearest Bounds.mantissaBits Bounds.smallestSubnormal v 0 ↔ Spelling.Underflows v := by
  have h : Nearest Bounds.mantissaBits Bounds.smallestSubnormal v 0 ↔ v ≤ 2 ^ (Bounds.smallestSubnormal - 1) :=
    nearest_zero (by decide) h0
  exact h

theorem nearestDouble_underflow {v : ℚ} (h0 : 0 ≤ v) : NearestDouble v ((0 : ℚ) : WithTop ℚ) ↔ Spelling.Underflows v := by
  have hpos : (0 : ℚ) < 2 ^ Bounds.largest := two_pow_pos _
  constructor
  · rintro ⟨x,hx,heq⟩
    split at heq
    · obtain rfl : (0 : ℚ) = x := WithTop.coe_injective heq
      exact (nearest_zero_iff h0).mp hx
    · exact absurd heq (WithTop.coe_ne_top)
  · intro h
    exact ⟨0,(nearest_zero_iff h0).mpr h,by rw [if_pos hpos]⟩

theorem nearestDouble_overflow {v : ℚ} (h0 : 0 ≤ v) : NearestDouble v ⊤ ↔ Spelling.Overflows v := by
  have hover : (2 : ℚ) ^ Bounds.largest = 2 ^ 53 * 2 ^ (971 : ℤ) := by
    rw [← zpow_natCast,← zpow_add₀ (by norm_num)]
    rfl
  constructor
  · rintro ⟨x,hx,heq⟩
    split at heq
    · exact absurd heq.symm (WithTop.coe_ne_top)
    · rename_i hlt
      rw [not_lt,hover] at hlt
      exact (nearest_overflow (by decide) (by decide) hx).mp hlt
  · intro h
    obtain ⟨x,hx⟩ : ∃ x, Nearest Bounds.mantissaBits Bounds.smallestSubnormal v x := exists_nearest (by decide) h0
    have hle := (nearest_overflow (by decide) (by decide) hx).mpr h
    exact ⟨x,hx,by rw [if_neg (by rw [hover]; exact hle.not_gt)]⟩

theorem nearestDouble_unique {v : ℚ} {r r' : WithTop ℚ} (h : NearestDouble v r) (h' : NearestDouble v r') : r = r' := by
  obtain ⟨x,hx,rfl⟩ := h
  obtain ⟨y,hy,rfl⟩ := h'
  rw [nearest_unique (by decide) hx hy]

/-- One double is nearest to two values ten times apart only where both overflow or both underflow. -/
theorem nearestDouble_far {v w : ℚ} {r : WithTop ℚ} (hv : 0 ≤ v) (h10 : 10 * v ≤ w) (h : NearestDouble v r)
    (h' : NearestDouble w r) : (Spelling.Overflows v ∧ Spelling.Overflows w) ∨ (Spelling.Underflows v ∧ Spelling.Underflows w) := by
  have hw : 0 ≤ w := by linarith
  by_cases htop : r = ⊤
  · subst htop
    exact .inl ⟨(nearestDouble_overflow hv).mp h,(nearestDouble_overflow hw).mp h'⟩
  · right
    obtain ⟨x,hx,rfl⟩ := h
    obtain ⟨y,hy,heq⟩ := h'
    obtain rfl : x = y := by
      by_cases h1 : x < 2 ^ Bounds.largest
      · rw [if_pos h1] at heq
        by_cases h2 : y < 2 ^ Bounds.largest
        · rw [if_pos h2] at heq
          exact WithTop.coe_injective heq
        · rw [if_neg h2] at heq
          exact absurd heq WithTop.coe_ne_top
      · exact absurd (if_neg h1) htop
    have hpos := two_pow_pos (-1075)
    rcases hx.held.nonneg.eq_or_lt with h0 | h0
    · rw [← h0] at hx hy
      exact ⟨(nearest_zero_iff hv).mp hx,(nearest_zero_iff hw).mp hy⟩
    · have h3 := nearest_ratio hx hy h0 hv
      exact ⟨by unfold Spelling.Underflows; linarith,by unfold Spelling.Underflows; linarith⟩

/-! ### What a text is read to -/

namespace Spelling

/-- The text is read to the double nearest to the value spelled, and the short way, where it
answers, answers that value. -/
structure ReadsNearest (sp : Spelling) : Prop where
  long : ∃ r, magnitudeOf (read sp.spelled (magnitudeStart sp.spelled)) = .ok r ∧ NearestDouble sp.value r.denote
  short : ∀ m e, shortMagnitude sp.spelled (magnitudeStart sp.spelled) = some (m,e) →
    m ≤ 2 ^ 53 ∧ |e| ≤ 22 ∧ (m : ℚ) * 10 ^ e = sp.value

/-- The exponent is read whole, or both the value spelled and the one with the exponent cut short
overflow, or both underflow. -/
def Reaches (sp : Spelling) : Prop :=
  sp.ShortExponent ∨ (Overflows (sp.valueAt sp.cutScale) ∧ Overflows sp.value) ∨
    (Underflows (sp.valueAt sp.cutScale) ∧ Underflows sp.value)

theorem nearest_of_reaches {sp : Spelling} (h : sp.Reaches) {r : WithTop ℚ} (hr : NearestDouble (sp.valueAt sp.cutScale) r) :
    NearestDouble sp.value r := by
  have h0 := sp.valueAt_nonneg sp.cutScale
  have h0' : 0 ≤ sp.value := sp.valueAt_nonneg _
  rcases h with h | ⟨h1,h2⟩ | ⟨h1,h2⟩
  · rwa [cutScale_eq h] at hr
  · rw [nearestDouble_unique hr ((nearestDouble_overflow h0).mpr h1)]
    exact (nearestDouble_overflow h0').mpr h2
  · rw [nearestDouble_unique hr ((nearestDouble_underflow h0).mpr h1)]
    exact (nearestDouble_underflow h0').mpr h2

theorem reaches_of_nearest {sp : Spelling} {r : WithTop ℚ} (hr : NearestDouble (sp.valueAt sp.cutScale) r)
    (h : NearestDouble sp.value r) : sp.Reaches := by
  have h0 := sp.valueAt_nonneg sp.cutScale
  have h0' : 0 ≤ sp.value := sp.valueAt_nonneg _
  by_cases hshort : sp.ShortExponent
  · exact .inl hshort
  right
  rcases cutScale_far hshort with hfar | hfar
  · exact nearestDouble_far h0 (sp.valueAt_ten hfar) hr h
  · have := nearestDouble_far h0' (sp.valueAt_ten hfar) h hr
    exact this.imp And.symm And.symm

theorem readsNearest_iff (sp : Spelling) : sp.ReadsNearest ↔ sp.Reaches := by
  obtain ⟨r,hread,hr⟩ := magnitudeOf_read sp
  constructor
  · rintro ⟨⟨r',hread',hr'⟩,-⟩
    rw [magnitudeStart_spelled,hread] at hread'
    obtain rfl := Except.ok.inj hread'
    exact reaches_of_nearest hr hr'
  · intro h
    rw [← magnitudeStart_spelled] at hread
    refine ⟨⟨r,hread,nearest_of_reaches h hr⟩,fun m e hm => shortMagnitude_exact sp ?_⟩
    rwa [magnitudeStart_spelled] at hm

end Spelling

/-- `spellsDouble` accepts what is spelled, and a text is read to the nearest double exactly where its
exponent is read whole or the digits not taken make no difference. -/
theorem reads_nearest (text : Text) (sp : Spelling) :
    (spellsDouble text = true ↔ ∃ sp : Spelling, text = sp.spelled) ∧ (sp.ReadsNearest ↔ sp.Reaches) :=
  ⟨spellsDouble_iff text,sp.readsNearest_iff⟩

/-! ### A power of ten and its inverse -/

namespace Spelling

def tenPower (n : ℕ) (e : Scientific) : Spelling where
  sign := none
  whole := 1 :: List.replicate n 0
  fraction := []
  exponent := some e
  nonempty := List.cons_ne_nil _ _
  wholeSmall := by
    intro d hd
    rcases List.mem_cons.mp hd with rfl | hd
    · decide
    · rw [List.eq_of_mem_replicate hd]
      decide
  fractionSmall := fun _ h => (List.not_mem_nil h).elim

theorem valueAt_tenPower (n : ℕ) (e : Scientific) (x : ℤ) : (tenPower n e).valueAt x = 10 ^ (n + x) := by
  rw [valueAt,show (tenPower n e).whole ++ (tenPower n e).fraction = [1] ++ List.replicate n 0 from List.append_nil _,
    magnitude_append_zeros]
  simp only [magnitude,tenPower,number,List.length_cons,List.length_replicate,List.length_nil,List.foldl_cons,List.foldl_nil]
  push_cast
  rw [one_mul]
  congr 1
  ring

theorem short_zeros (ceiling : ℕ) : (digitBytes (1 :: List.replicate 16 0)).foldlM (Short.next ceiling) {} = none := rfl

theorem shortMagnitude_tenPower {n : ℕ} (h : 16 ≤ n) (e : Scientific) :
    shortMagnitude (tenPower n e).spelled (tenPower n e).start = none := by
  have hdrop : (tenPower n e).spelled.bytes.drop (tenPower n e).start = digitBytes (1 :: List.replicate 16 0) ++
      (digitBytes (List.replicate (n - 16) 0) ++ e.bytes) := by
    obtain ⟨k,rfl⟩ := Nat.exists_eq_add_of_le h
    rw [Nat.add_sub_cancel_left,← List.append_assoc,digitBytes,digitBytes,← List.map_append,List.cons_append,
      ← List.replicate_add]
    rfl
  rw [shortMagnitude,hdrop,List.foldlM_append,short_zeros]
  rfl

end Spelling

def minusTwentyThousand : Scientific := ⟨'e'.toNat,some .minus,[2,0,0,0,0],by decide,by decide,by unfold AreDigits; decide⟩

def backToOne : Spelling := .tenPower 20000 minusTwentyThousand

theorem backToOne_value : backToOne.value = 1 := by
  have hscale : backToOne.scale = -20000 := rfl
  rw [Spelling.value,hscale,backToOne,Spelling.valueAt_tenPower]
  norm_num

theorem backToOne_short : shortMagnitude backToOne.spelled backToOne.start = none := by
  rw [backToOne]
  exact Spelling.shortMagnitude_tenPower (by norm_num) _

theorem backToOne_long : ¬backToOne.ShortExponent := by
  intro h
  have hlt := h minusTwentyThousand rfl
  revert hlt
  decide

/-- The text is accepted and the short way gives it up, and it is not read to the nearest double. -/
theorem backToOne_misread : spellsDouble backToOne.spelled = true ∧
    shortMagnitude backToOne.spelled (magnitudeStart backToOne.spelled) = none ∧ ¬backToOne.ReadsNearest := by
  refine ⟨backToOne.spellsDouble_spelled,?_,?_⟩
  · rw [Spelling.magnitudeStart_spelled,backToOne_short]
  · rw [Spelling.readsNearest_iff,Spelling.Reaches,backToOne_value]
    rintro (h | ⟨-,h⟩ | ⟨-,h⟩)
    · exact backToOne_long h
    · have h1 : (1 : ℚ) ≤ 2 ^ (971 : ℤ) := one_le_zpow₀ (by norm_num) (by norm_num)
      have h2 : (2 : ℚ) ^ (971 : ℤ) < (2 ^ 53 - 1 / 2) * 2 ^ (971 : ℤ) :=
        lt_mul_of_one_lt_left (two_pow_pos _) (by norm_num)
      exact (h1.trans_lt h2).not_ge h
    · exact (zpow_lt_one_of_neg₀ (by norm_num) (by norm_num)).not_ge h

end Ens.Number
