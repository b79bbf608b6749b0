import Ens.Logic.Long
import Ens.Number.Spelling
import Mathlib.Data.List.Forall2
import Mathlib.Tactic.Ring

/-! # Integers written in a radix

Writing takes the digits of a magnitude from the last to the first, reading gathers a value on the negative side of zero, which has room
for one more.
-/
set_option linter.all false
namespace Ens.Number.Radix
open Loop
variable {radix : ℤ} {r : ℕ}

/-! ### Reading -/

def smallest : ℤ := -2 ^ 63

/-- What digit the byte spells in a radix, or -1 when it spells none of them. -/
def digitValue (value : ℕ) (radix : ℤ) : ℤ :=
  let digit : ℤ :=
    if '0'.toNat ≤ value ∧ value ≤ '9'.toNat then (value : ℤ) - '0'.toNat
    else if 'a'.toNat ≤ value ∧ value ≤ 'z'.toNat then (value : ℤ) - 'a'.toNat + 10
    else if 'A'.toNat ≤ value ∧ value ≤ 'Z'.toNat then (value : ℤ) - 'A'.toNat + 10
    else -1
  if digit < 0 ∨ radix ≤ digit then -1 else digit

def step (radix : ℤ) : ℤ := smallest.tdiv radix

def lastDigit (radix : ℤ) : ℤ := Long.wrap (0 - Long.wrap (smallest - Long.wrap (step radix * radix)))

def accumulate (radix value : ℤ) (byte : ℕ) : Option ℤ :=
  let digit := digitValue byte radix
  if digit < 0 then none
  else if value < step radix ∨ value = step radix ∧ lastDigit radix < digit then none
  else some (Long.wrap (Long.wrap (value * radix) - digit))

def parseLong (text : Text) (radix : ℤ) : Except Stop (Option ℤ) :=
  if radix < 2 ∨ 36 < radix then .error .abort
  else
    let negative := text.bytes[0]? = some '-'.toNat
    let start := if text.bytes[0]?.any isSign then 1 else 0
    .ok (if start = text.length then none
      else
        match (text.bytes.drop start).foldlM (accumulate radix) 0 with
        | none => none
        | some value => if negative then some value else if value = smallest then none else some (Long.wrap (0 - value)))

/-! ### Writing -/

def lowercase : List ℕ := utf8 "0123456789abcdefghijklmnopqrstuvwxyz"

def digitsStep (base : ℕ) : List ℕ × ℕ × ℕ → Except Stop (Flow (List ℕ × ℕ × ℕ) (List ℕ))
  | (written,index,rest) =>
    match index with
    | 0 => .error .abort
    | index + 1 =>
      match lowercase[rest % base]? with
      | none => .error .abort
      | some digit =>
        let written := written.set index digit
        let rest := rest / base
        .ok (if rest = 0 then .done (written.drop index) else .next (written,index,rest))

def digitsOf (value : ℕ) (radix : ℤ) : Except Stop (List ℕ) :=
  if radix < 2 ∨ 36 < radix then .error .abort
  else loop .endless (digitsStep radix.toNat) 65 (List.replicate 64 0,64,value)

/-- The 64 bits of a long as a magnitude. -/
def toULong (x : ℤ) : ℕ := (x % 2 ^ 64).toNat

def signedDigits (value : ℤ) (radix : ℤ) : Except Stop (List ℕ) :=
  if value < 0 then do .ok ('-'.toNat :: (← digitsOf ((2 ^ 64 - toULong value) % 2 ^ 64) radix))
  else digitsOf (toULong value) radix

/-! ### Digits -/

def valueFrom (r start : ℕ) (digits : List ℕ) : ℕ := digits.foldl (fun n d => n * r + d) start

def digit? (r byte : ℕ) : Option ℕ :=
  if digitValue byte r < 0 then none else some (digitValue byte r).toNat

/-- A byte spells a digit of a radix: as a decimal digit, or as a letter of either case. -/
def Spells (byte digit : ℕ) : Prop :=
  digit < 10 ∧ byte = '0'.toNat + digit ∨ 10 ≤ digit ∧ digit < 36 ∧ (byte = 'a'.toNat + (digit - 10) ∨ byte = 'A'.toNat + (digit - 10))

theorem digit?_iff {byte digit : ℕ} (hr : r ≤ 36) : digit? r byte = some digit ↔ digit < r ∧ Spells byte digit := by
  have h0 : '0'.toNat = 48 := rfl
  have h9 : '9'.toNat = 57 := rfl
  have ha : 'a'.toNat = 97 := rfl
  have hz : 'z'.toNat = 122 := rfl
  have hA : 'A'.toNat = 65 := rfl
  have hZ : 'Z'.toNat = 90 := rfl
  rw [digit?,digitValue,Spells,h0,h9,ha,hz,hA,hZ]
  split_ifs <;> simp only [Option.some.injEq,false_iff] <;> omega

theorem valueFrom_ge (hr : 1 ≤ r) (start : ℕ) (digits : List ℕ) : start ≤ valueFrom r start digits := by
  induction digits generalizing start with
  | nil => exact Nat.le_refl _
  | cons d digits ih =>
    have hmul : start ≤ start * r := Nat.le_mul_of_pos_right _ hr
    exact (hmul.trans (Nat.le_add_right _ d)).trans (ih (start * r + d))

theorem valueFrom_append (r start : ℕ) (xs ys : List ℕ) : valueFrom r start (xs ++ ys) = valueFrom r (valueFrom r start xs) ys :=
  List.foldl_append

theorem valueFrom_eq (r start : ℕ) (digits : List ℕ) : valueFrom r start digits = start * r ^ digits.length + valueFrom r 0 digits := by
  induction digits generalizing start with
  | nil => simp [valueFrom]
  | cons d digits ih =>
    have hstep : ∀ s, valueFrom r s (d :: digits) = valueFrom r (s * r + d) digits := fun _ => rfl
    rw [hstep,hstep,ih,ih (0 * r + d),List.length_cons,Nat.pow_succ]
    ring

/-! ### Reading is exact -/

theorem step_eq (r : ℕ) : step r = -((2 ^ 63 / r : ℕ) : ℤ) := by
  rw [step,smallest,Int.neg_tdiv,Int.tdiv_eq_ediv_of_nonneg (by norm_num)]
  norm_cast

theorem lastDigit_eq (hr : 2 ≤ r) (hr' : r ≤ 36) : lastDigit r = ((2 ^ 63 % r : ℕ) : ℤ) := by
  have hsplit : ((2 ^ 63 / r * r : ℕ) : ℤ) + ((2 ^ 63 % r : ℕ) : ℤ) = 2 ^ 63 := by
    have hmod := Nat.div_add_mod' (2 ^ 63) r
    exact_mod_cast hmod
  have hmul : step r * r = -((2 ^ 63 / r * r : ℕ) : ℤ) := by
    rw [step_eq r]
    push_cast
    ring
  have hrest : smallest - -((2 ^ 63 / r * r : ℕ) : ℤ) = -((2 ^ 63 % r : ℕ) : ℤ) := by
    rw [smallest]
    omega
  have hfirst : Long.wrap (step r * r) = -((2 ^ 63 / r * r : ℕ) : ℤ) := by
    rw [hmul]
    exact Long.wrap_eq ⟨by omega,by omega⟩
  have hsecond : Long.wrap (smallest - -((2 ^ 63 / r * r : ℕ) : ℤ)) = -((2 ^ 63 % r : ℕ) : ℤ) := by
    rw [hrest]
    exact Long.wrap_eq ⟨by omega,by omega⟩
  have hmod : 2 ^ 63 % r < r := Nat.mod_lt _ (by omega)
  rw [lastDigit,hfirst,hsecond,zero_sub,neg_neg]
  exact Long.wrap_eq ⟨by omega,by omega⟩

theorem room_iff {n d : ℕ} (hr : 2 ≤ r) (hr' : r ≤ 36) (hd : d < r) :
    (-(n : ℤ) < step r ∨ -(n : ℤ) = step r ∧ lastDigit r < d) ↔ 2 ^ 63 < n * r + d := by
  have hmod := Nat.div_add_mod' (2 ^ 63) r
  have hlt := Nat.mod_lt (2 ^ 63) (show 0 < r by omega)
  rw [step_eq r,lastDigit_eq hr hr']
  generalize 2 ^ 63 / r = q at *
  generalize 2 ^ 63 % r = m at *
  rcases Nat.lt_trichotomy n q with hn | rfl | hn
  · have hle : (n + 1) * r ≤ q * r := Nat.mul_le_mul_right r hn
    rw [Nat.succ_mul] at hle
    omega
  · omega
  · have hle : (q + 1) * r ≤ n * r := Nat.mul_le_mul_right r hn
    rw [Nat.succ_mul] at hle
    omega

/-- A digit that there is room for makes a long of a long, and so does the product before it. -/
theorem accumulate_eq {n : ℕ} {byte : ℕ} (hr : 2 ≤ r) (hr' : r ≤ 36) :
    accumulate r (-(n : ℤ)) byte = match digit? r byte with
      | none => none
      | some d => if n * r + d ≤ 2 ^ 63 then some (-((n * r + d : ℕ) : ℤ)) else none := by
  rw [accumulate]
  cases hd : digit? r byte with
  | none =>
    rw [digit?] at hd
    split_ifs at hd with hneg
    rw [if_pos hneg]
  | some d =>
    have hsmall := ((digit?_iff hr').mp hd).1
    rw [digit?] at hd
    split_ifs at hd with hneg
    cases hd
    obtain ⟨d,hdigit⟩ := Int.eq_ofNat_of_zero_le (not_lt.mp hneg)
    rw [hdigit,Int.toNat_natCast] at hsmall ⊢
    dsimp only
    rw [if_neg (by omega)]
    by_cases hroom : 2 ^ 63 < n * r + d
    · rw [if_pos ((room_iff hr hr' hsmall).mpr hroom),if_neg (by omega)]
    · have hmul : -(n : ℤ) * r = -((n * r : ℕ) : ℤ) := by
        push_cast
        ring
      have hproduct : Long.wrap (-(n : ℤ) * r) = -((n * r : ℕ) : ℤ) := by
        rw [hmul]
        exact Long.wrap_eq ⟨by omega,by omega⟩
      have hsum : -((n * r : ℕ) : ℤ) - d = -((n * r + d : ℕ) : ℤ) := by omega
      rw [if_neg fun h => hroom ((room_iff hr hr' hsmall).mp h),if_pos (by omega),hproduct,hsum,Long.wrap_eq ⟨by omega,by omega⟩]

/-- The digits of the bytes are gathered if all bytes spell digits and the number they denote is no larger than the smallest long is small. -/
theorem gather_eq (hr : 2 ≤ r) (hr' : r ≤ 36) (bytes : List ℕ) (n : ℕ) (hn : n ≤ 2 ^ 63) :
    bytes.foldlM (accumulate r) (-(n : ℤ)) = match bytes.mapM (digit? r) with
      | none => none
      | some digits => if valueFrom r n digits ≤ 2 ^ 63 then some (-(valueFrom r n digits : ℤ)) else none := by
  induction bytes generalizing n with
  | nil =>
    rw [List.mapM_nil]
    exact (if_pos hn).symm
  | cons byte bytes ih =>
    rw [List.foldlM_cons,List.mapM_cons,accumulate_eq hr hr']
    cases digit? r byte with
    | none => rfl
    | some d =>
      dsimp only
      by_cases hle : n * r + d ≤ 2 ^ 63
      · rw [if_pos hle]
        refine (ih (n * r + d) hle).trans ?_
        cases bytes.mapM (digit? r) <;> rfl
      · rw [if_neg hle]
        have hpast : ∀ digits, ¬valueFrom r n (d :: digits) ≤ 2 ^ 63 := fun digits hv =>
          hle ((valueFrom_ge (by omega) (n * r + d) digits).trans hv)
        cases hm : bytes.mapM (digit? r) with
        | none => rfl
        | some digits => exact (if_neg (hpast digits)).symm

theorem mapM_iff {A B : Type} {f : A → Option B} {xs : List A} {ys : List B} :
    xs.mapM f = some ys ↔ List.Forall₂ (fun x y => f x = some y) xs ys := by
  induction xs generalizing ys with
  | nil =>
    rw [List.mapM_nil,List.forall₂_nil_left_iff]
    exact ⟨fun h => (Option.some.inj h).symm,fun h => congrArg some h.symm⟩
  | cons x xs ih =>
    rw [List.mapM_cons,List.forall₂_cons_left_iff]
    constructor
    · intro h
      obtain ⟨y,hy,h⟩ := Option.bind_eq_some_iff.mp h
      obtain ⟨zs,hzs,h⟩ := Option.bind_eq_some_iff.mp h
      exact ⟨y,zs,hy,ih.mp hzs,(Option.some.inj h).symm⟩
    · rintro ⟨y,zs,hy,hzs,rfl⟩
      rw [hy,ih.mpr hzs]
      rfl

/-- A text that is an optional sign and at least one digit of the radix denotes a number. -/
def Denotes (r : ℕ) (bytes : List ℕ) (x : ℤ) : Prop :=
  ∃ (sign : Option Sign) (letters digits : List ℕ), bytes = signBytes sign ++ letters ∧ letters ≠ [] ∧
    List.Forall₂ (fun b d => d < r ∧ Spells b d) letters digits ∧
    x = if sign = some .minus then -(valueFrom r 0 digits : ℤ) else valueFrom r 0 digits

theorem forall₂_digit?_iff (hr' : r ≤ 36) {letters digits : List ℕ} :
    letters.mapM (digit? r) = some digits ↔ List.Forall₂ (fun b d => d < r ∧ Spells b d) letters digits := by
  rw [mapM_iff]
  simp only [digit?_iff hr']

def signed (sign : Option Sign) (n : ℕ) : Option ℤ :=
  if 2 ^ 63 < n then none else if sign = some .minus then some (-n) else if n = 2 ^ 63 then none else some n

theorem signed_iff {sign : Option Sign} {n : ℕ} {x : ℤ} :
    signed sign n = some x ↔ Long.Fits x ∧ x = if sign = some .minus then -(n : ℤ) else n := by
  rw [signed,Long.Fits]
  constructor
  · intro h
    split_ifs at h ⊢ with hover hm hs
    · cases h
      omega
    · cases h
      omega
  · rintro ⟨hfits,hx⟩
    by_cases hm : sign = some .minus
    · rw [if_pos hm] at hx
      rw [if_neg (by omega),if_pos hm,hx]
    · rw [if_neg hm] at hx
      rw [if_neg (by omega),if_neg hm,if_neg (by omega),hx]

theorem parseLong_eq (hr : 2 ≤ r) (hr' : r ≤ 36) {text : Text} {sign : Option Sign} {letters : List ℕ}
    (htext : text.bytes = signBytes sign ++ letters) (hsign : sign = none → letters.head?.any isSign = false) :
    parseLong text r = .ok (if letters = [] then none
      else (letters.mapM (digit? r)).bind fun digits => signed sign (valueFrom r 0 digits)) := by
  have hstart : (if text.bytes[0]?.any isSign then 1 else 0) = (signBytes sign).length := by
    rw [htext]
    cases sign with
    | none =>
      have hhead := hsign rfl
      rw [List.head?_eq_getElem?] at hhead
      rw [signBytes,Option.map_none,Option.toList_none,List.nil_append,hhead]
      rfl
    | some s => cases s <;> rfl
  have hminus : text.bytes[0]? = some '-'.toNat ↔ sign = some .minus := by
    rw [htext]
    cases sign with
    | none =>
      have hhead := hsign rfl
      rw [List.head?_eq_getElem?] at hhead
      refine ⟨fun h => ?_,fun h => by cases h⟩
      rw [signBytes,Option.map_none,Option.toList_none,List.nil_append] at h
      rw [h] at hhead
      cases hhead
    | some s =>
      cases s with
      | plus => exact ⟨fun h => absurd (Option.some.inj h) (by decide),fun h => by cases h⟩
      | minus => exact ⟨fun _ => rfl,fun _ => rfl⟩
  have hlength : (signBytes sign).length = text.length ↔ letters = [] := by
    rw [Text.length,htext,List.length_append]
    exact ⟨fun h => List.eq_nil_of_length_eq_zero (by omega),fun h => by rw [h]; rfl⟩
  have hgather := gather_eq hr hr' letters 0 (Nat.zero_le _)
  rw [Nat.cast_zero,neg_zero] at hgather
  rw [parseLong,if_neg (by omega)]
  dsimp only
  rw [hstart,htext,List.drop_left,← htext,hgather]
  simp only [hlength,hminus]
  congr 1
  by_cases hnil : letters = []
  · rw [if_pos hnil,if_pos hnil]
  · rw [if_neg hnil,if_neg hnil]
    cases letters.mapM (digit? r) with
    | none => rfl
    | some digits =>
      rw [Option.bind_some,signed]
      dsimp only
      by_cases hle : valueFrom r 0 digits ≤ 2 ^ 63
      · have hsmallest : -(valueFrom r 0 digits : ℤ) = smallest ↔ valueFrom r 0 digits = 2 ^ 63 := by
          rw [smallest]
          omega
        have hwrap : Long.wrap (0 - -(valueFrom r 0 digits : ℤ)) = if valueFrom r 0 digits = 2 ^ 63 then smallest else valueFrom r 0 digits := by
          rw [zero_sub,neg_neg]
          split_ifs with hs
          · rw [hs]
            decide
          · exact Long.wrap_eq ⟨by omega,by omega⟩
        rw [if_pos hle,if_neg (not_lt.mpr hle)]
        dsimp only
        rw [hwrap]
        simp only [hsmallest]
        split_ifs <;> rfl
      · rw [if_neg hle,if_pos (not_le.mp hle)]

theorem exists_sign (bytes : List ℕ) : ∃ (sign : Option Sign) (letters : List ℕ), bytes = signBytes sign ++ letters ∧
    (sign = none → letters.head?.any isSign = false) := by
  cases bytes with
  | nil => exact ⟨none,[],rfl,fun _ => rfl⟩
  | cons b bytes =>
    by_cases hb : isSign b = true
    · obtain ⟨s,rfl⟩ := isSign_iff.mp hb
      exact ⟨some s,bytes,rfl,fun h => by cases h⟩
    · exact ⟨none,b :: bytes,rfl,fun _ => by simpa using hb⟩

theorem not_sign_of_spells {byte digit : ℕ} (h : Spells byte digit) : isSign byte = false := by
  have h0 : '0'.toNat = 48 := rfl
  have ha : 'a'.toNat = 97 := rfl
  have hA : 'A'.toNat = 65 := rfl
  have hminus : '-'.toNat = 45 := rfl
  have hplus : '+'.toNat = 43 := rfl
  rw [Spells,h0,ha,hA] at h
  rw [isSign,hminus,hplus,Bool.or_eq_false_iff,decide_eq_false_iff_not,decide_eq_false_iff_not]
  omega

theorem parseLong_iff (hr : 2 ≤ r) (hr' : r ≤ 36) (text : Text) :
    ∃ result, parseLong text r = .ok result ∧ ∀ x, result = some x ↔ Long.Fits x ∧ Denotes r text.bytes x := by
  obtain ⟨sign,letters,htext,hsign⟩ := exists_sign text.bytes
  refine ⟨_,parseLong_eq hr hr' htext hsign,fun x => ⟨fun h => ?_,?_⟩⟩
  · by_cases hnil : letters = []
    · rw [if_pos hnil] at h
      cases h
    · rw [if_neg hnil] at h
      obtain ⟨digits,hdigits,hx⟩ := Option.bind_eq_some_iff.mp h
      obtain ⟨hfits,hx⟩ := signed_iff.mp hx
      exact ⟨hfits,sign,letters,digits,htext,hnil,(forall₂_digit?_iff hr').mp hdigits,hx⟩
  · rintro ⟨hfits,sign',letters',digits,htext',hne,hdigits,hx⟩
    have hsign' : sign' = none → letters'.head?.any isSign = false := fun _ => by
      cases hdigits with
      | nil => rfl
      | cons hfirst _ => exact not_sign_of_spells hfirst.2
    have hsame := Except.ok.inj ((parseLong_eq hr hr' htext hsign).symm.trans (parseLong_eq hr hr' htext' hsign'))
    rw [hsame,if_neg hne,(forall₂_digit?_iff hr').mpr hdigits,Option.bind_some]
    exact signed_iff.mpr ⟨hfits,hx⟩

/-! ### Writing -/

/-- A digit is written as the letter in its place, which spells it. -/
theorem lowercase_spells {d : ℕ} (hd : d < 36) : ∃ letter, lowercase[d]? = some letter ∧ Spells letter d := by
  have hall : ∀ d : Fin 36, ∃ letter, lowercase[d.val]? = some letter ∧
      (d.val < 10 ∧ letter = 48 + d.val ∨ 10 ≤ d.val ∧ letter = 97 + (d.val - 10)) := by
    intro d
    refine ⟨if d.val < 10 then 48 + d.val else 97 + (d.val - 10),?_,?_⟩
    · revert d
      decide
    · split_ifs with h
      · exact .inl ⟨h,rfl⟩
      · exact .inr ⟨by omega,rfl⟩
  obtain ⟨letter,hletter,hd'⟩ := hall ⟨d,hd⟩
  refine ⟨letter,hletter,?_⟩
  rcases hd' with ⟨hsmall,he⟩ | ⟨hlarge,he⟩
  · exact .inl ⟨hsmall,he⟩
  · exact .inr ⟨hlarge,hd,.inl he⟩

structure Writing (r value : ℕ) (state : List ℕ × ℕ × ℕ) : Prop where
  length : state.1.length = 64
  index : state.2.1 ≤ 64
  rest : state.2.2 < 2 ^ state.2.1
  more : 0 < state.2.1
  written : ∃ digits, List.Forall₂ (fun b d => d < r ∧ Spells b d) (state.1.drop state.2.1) digits ∧ valueFrom r state.2.2 digits = value

theorem digitsStep_ok (hr : 2 ≤ r) (hr' : r ≤ 36) {value : ℕ} {state : List ℕ × ℕ × ℕ} (h : Writing r value state) :
    (∃ letters, digitsStep r state = .ok (.done letters) ∧ letters ≠ [] ∧
      ∃ digits, List.Forall₂ (fun b d => d < r ∧ Spells b d) letters digits ∧ valueFrom r 0 digits = value) ∨
    ∃ state', digitsStep r state = .ok (.next state') ∧ Writing r value state' ∧ state'.2.1 < state.2.1 := by
  obtain ⟨written,index,rest⟩ := state
  obtain ⟨hlength,hindex,hrest,hmore,digits,hdigits,hvalue⟩ := h
  dsimp only at hlength hindex hrest hmore hdigits hvalue
  obtain ⟨index,rfl⟩ : ∃ n, index = n + 1 := ⟨index - 1,by omega⟩
  have hsmall : rest % r < r := Nat.mod_lt _ (by omega)
  obtain ⟨letter,hletter,hspells⟩ := lowercase_spells (hsmall.trans_le hr')
  have hdrop : (written.set index letter).drop index = letter :: written.drop (index + 1) := by
    rw [List.drop_eq_getElem_cons (by rw [List.length_set]; omega),List.getElem_set_self,List.drop_set_of_lt (Nat.lt_succ_self _)]
  have hall : List.Forall₂ (fun b d => d < r ∧ Spells b d) ((written.set index letter).drop index) (rest % r :: digits) := by
    rw [hdrop]
    exact .cons ⟨hsmall,hspells⟩ hdigits
  have hsame : valueFrom r (rest / r) (rest % r :: digits) = value := by
    have hstep : valueFrom r (rest / r) (rest % r :: digits) = valueFrom r (rest / r * r + rest % r) digits := rfl
    rw [hstep,Nat.div_add_mod',hvalue]
  rw [digitsStep]
  dsimp only
  rw [hletter]
  dsimp only
  by_cases hzero : rest / r = 0
  · left
    rw [if_pos hzero]
    rw [hzero] at hsame
    exact ⟨_,rfl,by rw [hdrop]; exact List.cons_ne_nil _ _,_,hall,hsame⟩
  · right
    have hhalf : rest / r < 2 ^ index := by
      rw [Nat.div_lt_iff_lt_mul (by omega)]
      rw [Nat.pow_succ] at hrest
      exact hrest.trans_le (Nat.mul_le_mul_left _ hr)
    have hpos : 0 < index := by
      rcases Nat.eq_zero_or_pos index with rfl | hpos
      · exact absurd (Nat.lt_one_iff.mp hhalf) hzero
      · exact hpos
    rw [if_neg hzero]
    exact ⟨_,rfl,⟨by rw [List.length_set,hlength],by dsimp only; omega,hhalf,hpos,_,hall,hsame⟩,Nat.lt_succ_self _⟩

/-- A magnitude is written as digits of the radix that denote it. -/
theorem digitsOf_ok (hr : 2 ≤ r) (hr' : r ≤ 36) {value : ℕ} (hvalue : value < 2 ^ 64) :
    ∃ letters, digitsOf value r = .ok letters ∧ letters ≠ [] ∧
      ∃ digits, List.Forall₂ (fun b d => d < r ∧ Spells b d) letters digits ∧ valueFrom r 0 digits = value := by
  have hfirst : Writing r value (List.replicate 64 0,64,value) :=
    ⟨List.length_replicate,le_rfl,hvalue,Nat.succ_pos 63,[],by rw [List.drop_eq_nil_of_le (by rw [List.length_replicate])]; exact .nil,rfl⟩
  rw [digitsOf,if_neg (by omega),Int.toNat_natCast]
  exact loop_ok (fun state : List ℕ × ℕ × ℕ => state.2.1) (fun _ hI => digitsStep_ok hr hr' hI) hfirst (Nat.lt_succ_self 64)

theorem spells_ascii {byte digit : ℕ} (h : Spells byte digit) : byte < 0x80 := by
  have h0 : '0'.toNat = 48 := rfl
  have ha : 'a'.toNat = 97 := rfl
  have hA : 'A'.toNat = 65 := rfl
  rw [Spells,h0,ha,hA] at h
  omega

theorem letters_ascii {letters digits : List ℕ} (h : List.Forall₂ (fun b d => d < r ∧ Spells b d) letters digits) :
    ∀ b ∈ letters, b < 0x80 := by
  induction h with
  | nil => exact fun _ hb => absurd hb List.not_mem_nil
  | cons hfirst _ ih =>
    intro b hb
    rcases List.mem_cons.mp hb with rfl | hb
    · exact spells_ascii hfirst.2
    · exact ih b hb

theorem toULong_neg {x : ℤ} (hx : Long.Fits x) (hneg : x < 0) : (2 ^ 64 - toULong x) % 2 ^ 64 = x.natAbs := by
  obtain ⟨hlow,-⟩ := hx
  have hmod : x % 2 ^ 64 = x + 2 ^ 64 := by omega
  rw [toULong,hmod]
  omega

theorem toULong_nonneg {x : ℤ} (hx : Long.Fits x) (hpos : 0 ≤ x) : toULong x = x.natAbs := by
  obtain ⟨-,hhigh⟩ := hx
  rw [toULong]
  omega

theorem signedDigits_ok (hr : 2 ≤ r) (hr' : r ≤ 36) {x : ℤ} (hx : Long.Fits x) :
    ∃ text : Text, signedDigits x r = .ok text.bytes ∧ Denotes r text.bytes x := by
  have hbound : x.natAbs < 2 ^ 64 := by
    obtain ⟨hlow,hhigh⟩ := hx
    omega
  obtain ⟨letters,hletters,hne,digits,hdigits,hvalue⟩ := digitsOf_ok hr hr' hbound
  have hascii := letters_ascii hdigits
  rw [signedDigits]
  by_cases hneg : x < 0
  · rw [if_pos hneg,toULong_neg hx hneg,hletters,ok_bind]
    have hall : ∀ b ∈ '-'.toNat :: letters, b < 0x80 := by
      intro b hb
      rcases List.mem_cons.mp hb with rfl | hb
      · decide
      · exact hascii b hb
    refine ⟨⟨_,Utf8.valid_ascii hall⟩,rfl,some .minus,letters,digits,rfl,hne,hdigits,?_⟩
    rw [if_pos rfl,hvalue]
    omega
  · rw [if_neg hneg,toULong_nonneg hx (not_lt.mp hneg),hletters]
    refine ⟨⟨letters,Utf8.valid_ascii hascii⟩,rfl,none,letters,digits,rfl,hne,hdigits,?_⟩
    rw [if_neg (by simp),hvalue]
    omega

/-- A value gathered from some bytes and the digit of the next one stay longs when they are put together. -/
theorem accumulate_fits (hr : 2 ≤ r) (hr' : r ≤ 36) {bytes : List ℕ} {byte : ℕ} {value value' : ℤ}
    (hbytes : bytes.foldlM (accumulate r) 0 = some value) (hbyte : accumulate r value byte = some value') :
    Long.Fits (value * r) ∧ Long.Fits (value * r - digitValue byte r) := by
  have hgather := gather_eq hr hr' bytes 0 (Nat.zero_le _)
  rw [Nat.cast_zero,neg_zero,hbytes] at hgather
  cases hm : bytes.mapM (digit? r) with
  | none =>
    rw [hm] at hgather
    cases hgather
  | some digits =>
    rw [hm] at hgather
    dsimp only at hgather
    split_ifs at hgather with hle
    cases hgather
    rw [accumulate_eq hr hr'] at hbyte
    cases hd : digit? r byte with
    | none =>
      rw [hd] at hbyte
      cases hbyte
    | some d =>
      rw [hd] at hbyte
      dsimp only at hbyte
      split_ifs at hbyte with hroom
      have hvalue : digitValue byte r = d := by
        rw [digit?] at hd
        split_ifs at hd
        cases hd
        omega
      have hmul : -(valueFrom r 0 digits : ℤ) * r = -((valueFrom r 0 digits * r : ℕ) : ℤ) := by
        push_cast
        ring
      rw [hmul,hvalue]
      exact ⟨⟨by omega,by omega⟩,by omega,by omega⟩

/-- In every radix a long is written as a text that reads back as the long, a text reads as a long exactly if it denotes one, and nothing
overflows on the way. -/
theorem parseLong_exact (radix : ℤ) (h2 : 2 ≤ radix) (h36 : radix ≤ 36) :
    (∀ x, Long.Fits x → ∃ text : Text, signedDigits x radix = .ok text.bytes ∧ parseLong text radix = .ok (some x)) ∧
    (∀ text : Text, ∃ result, parseLong text radix = .ok result ∧
      ∀ x, result = some x ↔ Long.Fits x ∧ Denotes radix.toNat text.bytes x) ∧
    ∀ (bytes : List ℕ) (byte : ℕ) (value value' : ℤ), bytes.foldlM (accumulate radix) 0 = some value →
      accumulate radix value byte = some value' → Long.Fits (value * radix) ∧ Long.Fits (value * radix - digitValue byte radix) := by
  obtain ⟨r,rfl⟩ := Int.eq_ofNat_of_zero_le (show 0 ≤ radix by omega)
  have hr : 2 ≤ r := by omega
  have hr' : r ≤ 36 := by omega
  refine ⟨fun x hx => ?_,fun text => ?_,fun bytes byte value value' => accumulate_fits hr hr'⟩
  · obtain ⟨text,htext,hdenotes⟩ := signedDigits_ok hr hr' hx
    obtain ⟨result,hresult,hiff⟩ := parseLong_iff hr hr' text
    exact ⟨text,htext,by rw [hresult,(hiff x).mpr ⟨hx,hdenotes⟩]⟩
  · rw [Int.toNat_natCast]
    exact parseLong_iff hr hr' text

theorem parseLong_exact_sixteen : (∀ x, Long.Fits x → ∃ text : Text, signedDigits x 16 = .ok text.bytes ∧ parseLong text 16 = .ok (some x)) ∧
    (∀ text : Text, ∃ result, parseLong text 16 = .ok result ∧ ∀ x, result = some x ↔ Long.Fits x ∧ Denotes (16 : ℤ).toNat text.bytes x) ∧
    ∀ (bytes : List ℕ) (byte : ℕ) (value value' : ℤ), bytes.foldlM (accumulate 16) 0 = some value →
      accumulate 16 value byte = some value' → Long.Fits (value * 16) ∧ Long.Fits (value * 16 - digitValue byte 16) :=
  parseLong_exact 16 (by decide) (by decide)

end Ens.Number.Radix
