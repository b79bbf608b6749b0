import Ens.Constants.Values
import Mathlib.Tactic.Linarith

/-! # Checked casts from integers

An integer becomes a member of an enum, or a character, where its number is that of one, and is absent else. The enum's test runs on the value
brought to the enum's 64 signed bits, where the upper half of the unsigned numbers of 64 bits turns negative; the character's test runs on the
value brought to 64 unsigned bits, where a negative number is past every character.
-/
set_option linter.all false
namespace Ens.Casts
open Constants (PrimitiveKind)

/-! ### The types a cast goes between -/

inductive Ty
  | primitive (kind : PrimitiveKind)
  | enum (numeric : Bool) (memberValues : List (BitVec 64))
  deriving DecidableEq

namespace Ty

def isIntegerType : Ty → Bool
  | primitive .byte | primitive .short | primitive .ushort | primitive .int | primitive .uint | primitive .long | primitive .ulong
  | primitive .char => true
  | _ => false

def isSignedType : Ty → Bool
  | primitive .short | primitive .int | primitive .long | enum _ _ => true
  | _ => false

def bitWidth : Ty → ℕ
  | primitive .bool => 1
  | primitive .byte => 8
  | primitive .short | primitive .ushort => 16
  | primitive .int | primitive .uint | primitive .char | primitive .float => 32
  | primitive .long | primitive .ulong | primitive .double => 64
  | primitive .void => 0
  | enum numeric _ => if numeric then 64 else 32

end Ty

/-- The number a value of a type stands for. -/
def number (type : Ty) (value : BitVec type.bitWidth) : ℤ := if type.isSignedType then value.toInt else value.toNat

/-! ### Converting and testing -/

inductive CastOp
  | reinterpret | trunc | signExtend | zeroExtend

def castOp (source target : Ty) : CastOp :=
  if source.bitWidth = target.bitWidth then .reinterpret
  else if target.bitWidth < source.bitWidth then .trunc
  else if source.isSignedType then .signExtend
  else .zeroExtend

def CastOp.run {w : ℕ} (v : ℕ) (value : BitVec w) : CastOp → BitVec v
  | reinterpret | trunc | zeroExtend => value.setWidth v
  | signExtend => value.signExtend v

def convert (source target : Ty) (value : BitVec source.bitWidth) : BitVec target.bitWidth :=
  if source = target then value.setWidth target.bitWidth else (castOp source target).run target.bitWidth value

def admitsEnum (source : Ty) : Ty → Bool
  | .enum numeric _ => numeric && source.isIntegerType
  | .primitive _ => false

/-- The members' numbers are compared one after another with the value at the enum's width, and the comparisons folded into one. -/
def lowerEnumCast (source : Ty) (numeric : Bool) (memberValues : List (BitVec 64)) (value : BitVec source.bitWidth) :
    Option (BitVec (Ty.enum numeric memberValues).bitWidth) :=
  let candidate := convert source (.enum numeric memberValues) value
  let matched := memberValues.foldl (fun matched member => matched || candidate == member.setWidth _) false
  if matched then some candidate else none

def compareWide (operation : BitVec 64 → BitVec 64 → Bool) (wide : BitVec 64) (bound : ℕ) : Bool := operation wide (BitVec.ofNat 64 bound)

def lowerCharCast (source : Ty) (value : BitVec source.bitWidth) : Option (BitVec 32) :=
  let wide : BitVec 64 := convert source (.primitive .ulong) value
  let inRange := compareWide BitVec.ule wide 0x10FFFF
  let below := compareWide BitVec.ult wide 0xD800
  let above := compareWide (fun x y => BitVec.ult y x) wide 0xDFFF
  if inRange && (below || above) then some (convert (.primitive .ulong) (.primitive .char) wide) else none

/-! ### What a cast should give -/

/-- Present exactly when a member has the value's number, and then with that number. -/
def EnumExact (source : Ty) (numeric : Bool) (memberValues : List (BitVec 64)) (value : BitVec source.bitWidth) : Prop :=
  ((lowerEnumCast source numeric memberValues value).isSome ↔ ∃ member ∈ memberValues, member.toInt = number source value) ∧
    ∀ result ∈ lowerEnumCast source numeric memberValues value, number (.enum numeric memberValues) result = number source value

def IsScalar (n : ℤ) : Prop := 0 ≤ n ∧ n < 0xD800 ∨ 0xDFFF < n ∧ n ≤ 0x10FFFF

/-- Present exactly when the value's number is that of a character, and then with that number. -/
def CharExact (source : Ty) (value : BitVec source.bitWidth) : Prop :=
  ((lowerCharCast source value).isSome ↔ IsScalar (number source value)) ∧
    ∀ result ∈ lowerCharCast source value, number (.primitive .char) result = number source value

/-! ### Converting to 64 bits -/

variable {source : Ty}

theorem foldl_or {A : Type} (p : A → Bool) (l : List A) (b : Bool) : l.foldl (fun found a => found || p a) b = (b || l.any p) := by
  induction l generalizing b with
  | nil => simp
  | cons a l ih => simp [ih,Bool.or_assoc]

theorem toInt_zeroExtend {w : ℕ} (h : w < 64) (value : BitVec w) : (value.setWidth 64).toInt = value.toNat := by
  have hlt : value.toNat < 2 ^ 63 := lt_of_lt_of_le value.isLt (Nat.pow_le_pow_right (by decide) (by omega))
  have hmod : value.toNat % 2 ^ 64 = value.toNat := Nat.mod_eq_of_lt (by omega)
  rw [BitVec.toInt_eq_toNat_of_lt,BitVec.toNat_setWidth,hmod]
  rw [BitVec.toNat_setWidth,hmod]
  omega

theorem toInt_signed {w : ℕ} (h : w ≤ 64) (value : BitVec w) : (value.signExtend 64).toInt = value.toInt :=
  BitVec.toInt_signExtend_of_le h

theorem toInt_wide (value : BitVec 64) :
    value.toInt = if (2 : ℤ) ^ 63 ≤ value.toNat then (value.toNat : ℤ) - 2 ^ 64 else (value.toNat : ℤ) := by
  rw [BitVec.toInt_eq_toNat_cond]
  split <;> split <;> omega

/-- Brought to 64 signed bits a value keeps its number, but one of 64 unsigned bits wraps around. -/
theorem convert_enum (h : source.isIntegerType = true) (memberValues : List (BitVec 64)) (value : BitVec source.bitWidth) :
    BitVec.toInt (convert source (.enum true memberValues) value) =
      if source = .primitive .ulong ∧ 2 ^ 63 ≤ number source value then number source value - 2 ^ 64 else number source value := by
  cases source with
  | enum numeric values => cases h
  | primitive kind =>
    cases kind with
    | ulong =>
      have hself : BitVec.toInt (convert (.primitive .ulong) (.enum true memberValues) value) = BitVec.toInt value :=
        congrArg BitVec.toInt (BitVec.setWidth_eq value)
      refine hself.trans ((toInt_wide value).trans ?_)
      simp [number,Ty.isSignedType]
      rfl
    | long => exact (congrArg BitVec.toInt (BitVec.setWidth_eq value)).trans (by simp [number,Ty.isSignedType])
    | byte | ushort | uint | char => exact (toInt_zeroExtend (by decide) value).trans (by simp [number,Ty.isSignedType])
    | short | int => exact (toInt_signed (by decide) value).trans (by simp [number,Ty.isSignedType])
    | void | bool | float | double => cases h

theorem toNat_wide (value : BitVec 64) : (value.toNat : ℤ) = if value.toInt < 0 then value.toInt + 2 ^ 64 else value.toInt := by
  rw [toInt_wide]
  have := value.isLt
  split <;> split <;> omega

/-- Brought to 64 unsigned bits a negative number wraps around. -/
theorem convert_wide (h : source.isIntegerType = true) (value : BitVec source.bitWidth) :
    (BitVec.toNat (convert source (.primitive .ulong) value) : ℤ) =
      if number source value < 0 then number source value + 2 ^ 64 else number source value := by
  have hunsigned : ∀ {w : ℕ}, w ≤ 64 → ∀ v : BitVec w, ((v.setWidth 64).toNat : ℤ) = v.toNat := by
    intro w hw v
    have hlt : v.toNat < 2 ^ 64 := lt_of_lt_of_le v.isLt (Nat.pow_le_pow_right (by decide) hw)
    rw [BitVec.toNat_setWidth,Nat.mod_eq_of_lt hlt]
  have hsigned : ∀ {w : ℕ}, w ≤ 64 → ∀ v : BitVec w,
      ((v.signExtend 64).toNat : ℤ) = if v.toInt < 0 then v.toInt + 2 ^ 64 else v.toInt := by
    intro w hw v
    rw [toNat_wide,toInt_signed hw]
  cases source with
  | enum numeric values => cases h
  | primitive kind =>
    cases kind with
    | long => exact (congrArg (fun v => (BitVec.toNat v : ℤ)) (BitVec.setWidth_eq value)).trans (toNat_wide value)
    | byte | ushort | uint | ulong | char => exact (hunsigned (by decide) value).trans (by simp [number,Ty.isSignedType])
    | short | int => exact hsigned (by decide) value
    | void | bool | float | double => cases h

/-! ### Exactness -/

theorem isSome_lowerEnumCast (memberValues : List (BitVec 64)) (value : BitVec source.bitWidth) :
    (lowerEnumCast source true memberValues value).isSome ↔
      ∃ member ∈ memberValues, member.toInt = BitVec.toInt (convert source (.enum true memberValues) value) := by
  have hmember : ∀ member : BitVec 64, member.setWidth (Ty.enum true memberValues).bitWidth = member :=
    fun member => BitVec.setWidth_eq member
  have hfold := foldl_or
    (fun member : BitVec 64 => convert source (.enum true memberValues) value == member.setWidth (Ty.enum true memberValues).bitWidth)
    memberValues false
  unfold lowerEnumCast
  dsimp only
  rw [hfold,Bool.false_or]
  split
  case isTrue h =>
    obtain ⟨member,hm,he⟩ := List.any_eq_true.1 h
    have heq : convert source (.enum true memberValues) value = member := (beq_iff_eq.1 he).trans (hmember member)
    exact iff_of_true rfl ⟨member,hm,(congrArg BitVec.toInt heq).symm⟩
  case isFalse h =>
    refine iff_of_false (by simp) ?_
    rintro ⟨member,hm,he⟩
    have heq : convert source (.enum true memberValues) value = member := BitVec.eq_of_toInt_eq he.symm
    exact h (List.any_eq_true.2 ⟨member,hm,beq_iff_eq.2 (heq.trans (hmember member).symm)⟩)

theorem of_mem_lowerEnumCast {memberValues : List (BitVec 64)} {value : BitVec source.bitWidth}
    {result : BitVec (Ty.enum true memberValues).bitWidth} (h : result ∈ lowerEnumCast source true memberValues value) :
    result = convert source (.enum true memberValues) value := by
  simp only [lowerEnumCast] at h
  split at h
  · exact (Option.mem_some_iff.1 h).symm
  · cases h

/-- The cast to an enum is exact unless a member has the number a wide unsigned value wraps around to. -/
theorem enumExact_iff (h : source.isIntegerType = true) (memberValues : List (BitVec 64)) (value : BitVec source.bitWidth) :
    EnumExact source true memberValues value ↔
      ¬ (source = .primitive .ulong ∧ ∃ member ∈ memberValues, member.toInt = number source value - 2 ^ 64) := by
  have hconvert := convert_enum h memberValues value
  have hbound : ∀ member : BitVec 64, -2 ^ 63 ≤ member.toInt ∧ member.toInt < 2 ^ 63 :=
    fun member => ⟨BitVec.le_toInt member,BitVec.toInt_lt⟩
  unfold EnumExact
  rw [isSome_lowerEnumCast]
  constructor
  · rintro ⟨-,hresult⟩ ⟨hs,member,hm,hn⟩
    have hlow := (hbound member).1
    rw [if_pos ⟨hs,by omega⟩] at hconvert
    have hsome : (lowerEnumCast source true memberValues value).isSome :=
      (isSome_lowerEnumCast memberValues value).2 ⟨member,hm,by rw [hn,hconvert]⟩
    obtain ⟨result,hr⟩ := Option.isSome_iff_exists.1 hsome
    have hwrong := hresult result hr
    rw [of_mem_lowerEnumCast hr] at hwrong
    simp only [number,Ty.isSignedType,if_true] at hwrong hconvert
    omega
  · intro hno
    by_cases hwrap : source = .primitive .ulong ∧ 2 ^ 63 ≤ number source value
    · rw [if_pos hwrap] at hconvert
      have hnone : ¬ ∃ member ∈ memberValues, member.toInt = BitVec.toInt (convert source (.enum true memberValues) value) := by
        rintro ⟨member,hm,hn⟩
        exact hno ⟨hwrap.1,member,hm,by rw [hn,hconvert]⟩
      refine ⟨iff_of_false hnone ?_,?_⟩
      · rintro ⟨member,hm,hn⟩
        have := (hbound member).2
        omega
      · intro result hr
        exact absurd ((isSome_lowerEnumCast memberValues value).1 (Option.isSome_iff_exists.2 ⟨result,hr⟩)) hnone
    · rw [if_neg hwrap] at hconvert
      refine ⟨by rw [hconvert],fun result hr => ?_⟩
      rw [of_mem_lowerEnumCast hr]
      exact hconvert

theorem number_bounds (h : source.isIntegerType = true) (value : BitVec source.bitWidth) :
    -2 ^ 63 ≤ number source value ∧ number source value < 2 ^ 64 := by
  have hunsigned : ∀ {w : ℕ}, w ≤ 64 → ∀ v : BitVec w, -2 ^ 63 ≤ (v.toNat : ℤ) ∧ (v.toNat : ℤ) < 2 ^ 64 := by
    intro w hw v
    have hlt : v.toNat < 2 ^ 64 := lt_of_lt_of_le v.isLt (Nat.pow_le_pow_right (by decide) hw)
    omega
  have hsigned : ∀ {w : ℕ}, w ≤ 64 → ∀ v : BitVec w, -2 ^ 63 ≤ v.toInt ∧ v.toInt < 2 ^ 64 := by
    intro w hw v
    rw [← toInt_signed hw]
    have hlow := BitVec.le_toInt (v.signExtend 64)
    have hhigh := BitVec.toInt_lt (x := v.signExtend 64)
    omega
  cases source with
  | enum numeric values => cases h
  | primitive kind =>
    cases kind with
    | byte | ushort | uint | ulong | char => exact hunsigned (by decide) value
    | short | int | long => exact hsigned (by decide) value
    | void | bool | float | double => cases h

def charTest (wide : BitVec 64) : Bool :=
  compareWide BitVec.ule wide 0x10FFFF && (compareWide BitVec.ult wide 0xD800 || compareWide (fun x y => BitVec.ult y x) wide 0xDFFF)

theorem charTest_iff {wide : BitVec 64} {n : ℤ} (hn : -2 ^ 63 ≤ n ∧ n < 2 ^ 64)
    (hwide : (wide.toNat : ℤ) = if n < 0 then n + 2 ^ 64 else n) : charTest wide = true ↔ IsScalar n := by
  have hbound : ∀ bound < 2 ^ 64, (BitVec.ofNat 64 bound).toNat = bound := fun bound h => by
    rw [BitVec.toNat_ofNat,Nat.mod_eq_of_lt h]
  simp only [charTest,compareWide,BitVec.ule,BitVec.ult,Bool.and_eq_true,Bool.or_eq_true,decide_eq_true_eq]
  rw [hbound _ (by decide),hbound _ (by decide),hbound _ (by decide)]
  unfold IsScalar
  split at hwide <;> omega

theorem lowerCharCast_eq (value : BitVec source.bitWidth) :
    lowerCharCast source value =
      if charTest (convert source (.primitive .ulong) value) then
        some (BitVec.setWidth 32 (convert source (.primitive .ulong) value))
      else none := rfl

theorem charExact (h : source.isIntegerType = true) (value : BitVec source.bitWidth) : CharExact source value := by
  have hbounds := number_bounds h value
  have hwide := convert_wide h value
  have htest := charTest_iff hbounds hwide
  unfold CharExact
  rw [lowerCharCast_eq]
  split
  case isTrue hc =>
    have hscalar := htest.1 hc
    refine ⟨iff_of_true rfl hscalar,fun result hr => ?_⟩
    cases hr
    have hsame : number (.primitive .char) (BitVec.setWidth 32 (convert source (.primitive .ulong) value)) =
        (BitVec.toNat (convert source (.primitive .ulong) value) % 2 ^ 32 : ℕ) :=
      congrArg Nat.cast (BitVec.toNat_setWidth 32 _)
    rw [hsame]
    unfold IsScalar at hscalar
    split at hwide <;> omega
  case isFalse hc =>
    refine ⟨iff_of_false (by simp) fun hs => hc (htest.2 hs),?_⟩
    intro result hr
    cases hr

/-- The cast to an enum the checker lets through is exact unless a member has the number a wide unsigned value wraps around to, and the cast
to a character is exact always. -/
theorem checkedCast_exact_iff (source : Ty) (numeric : Bool) (memberValues : List (BitVec 64)) (value : BitVec source.bitWidth)
    (h : admitsEnum source (.enum numeric memberValues) = true) :
    (EnumExact source numeric memberValues value ∧ CharExact source value) ↔
      ¬ (source = .primitive .ulong ∧ ∃ member ∈ memberValues, member.toInt = number source value - 2 ^ 64) := by
  obtain ⟨rfl,hs⟩ : numeric = true ∧ source.isIntegerType = true := by simpa [admitsEnum] using h
  rw [enumExact_iff hs]
  exact and_iff_left (charExact hs value)

theorem checkedCast_exact_byte :
    (EnumExact (.primitive .byte) true [5,-1] (255 : BitVec 8) ∧ CharExact (.primitive .byte) (255 : BitVec 8)) ↔
      ¬ (Ty.primitive .byte = .primitive .ulong ∧
        ∃ member ∈ ([5,-1] : List (BitVec 64)), member.toInt = number (.primitive .byte) (255 : BitVec 8) - 2 ^ 64) :=
  checkedCast_exact_iff (.primitive .byte) true [5,-1] (255 : BitVec 8) rfl

/-- The largest unsigned number becomes the member with the number -1. -/
theorem not_checkedCast_exact :
    ¬ ∀ (source : Ty) (numeric : Bool) (memberValues : List (BitVec 64)) (value : BitVec source.bitWidth),
      admitsEnum source (.enum numeric memberValues) = true → EnumExact source numeric memberValues value ∧ CharExact source value := by
  intro h
  obtain ⟨⟨-,hresult⟩,-⟩ := h (.primitive .ulong) true [-1] (-1 : BitVec 64) rfl
  have hwrong := hresult (-1 : BitVec 64) rfl
  exact absurd hwrong (by decide)

end Ens.Casts
