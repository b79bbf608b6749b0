import Ens.Casts.Checked
import Ens.Logic.Loop
import Ens.Text.Decode

/-! # Conversions and `==` between levels of null

A value of an optional type is absent at one of its levels or present at all of them. Where the type under a `?` is a reference the absence is in
the pointer, else a tag stands before a payload, and an absent pair is all zeros. A conversion keeps the level at which a value is absent, and
`==` brings both sides to one type and compares them level by level.
-/
set_option linter.all false
namespace Ens.Casts.Optionals
open Constants (PrimitiveKind)
open Loop

/-! ### Types -/

/-- The types of numbers, references and structs, with any number of levels of null; the last is the type of the null literal. -/
inductive Ty (R S : Type)
  | primitive (kind : PrimitiveKind)
  | reference (r : R)
  | struct (s : S)
  | optional (inner : Ty R S)
  | null
  deriving DecidableEq

def isInteger : PrimitiveKind → Bool
  | .byte | .short | .ushort | .int | .uint | .long | .ulong | .char => true
  | _ => false

def isSigned : PrimitiveKind → Bool
  | .short | .int | .long => true
  | _ => false

def isFloat : PrimitiveKind → Bool
  | .float | .double => true
  | _ => false

def isNumeric (kind : PrimitiveKind) : Bool := isInteger kind || isFloat kind

def integerBitWidth : PrimitiveKind → ℕ
  | .byte => 8
  | .short | .ushort => 16
  | .int | .uint | .char => 32
  | .long | .ulong => 64
  | _ => 0

def floatBitWidth : PrimitiveKind → ℕ
  | .float => 32
  | .double => 64
  | _ => 0

def kindWidensTo (source target : PrimitiveKind) : Bool :=
  if source = target then false
  else if source = .char ∧ (target = .int ∨ target = .uint) then true
  else if isInteger source && isInteger target then
    if isSigned source then isSigned target && decide (integerBitWidth source < integerBitWidth target)
    else decide (integerBitWidth source < integerBitWidth target)
  else if isInteger source && isFloat target then
    if source = .char then false else decide (integerBitWidth source ≤ if floatBitWidth target = 32 then 24 else 53)
  else if isFloat source && isFloat target then decide (floatBitWidth source < floatBitWidth target)
  else false

namespace Ty
variable {R S : Type}

def referenceOf : Ty R S → Option (Ty R S)
  | reference r => some (reference r)
  | null => some null
  | optional (reference r) => some (reference r)
  | optional null => some null
  | _ => none

def taggedPayloadOf : Ty R S → Option (Ty R S)
  | optional inner => if (optional inner).referenceOf.isSome then none else some inner
  | _ => none

def optionalDepth : Ty R S → ℕ
  | optional inner => inner.optionalDepth + 1
  | _ => 0

def core : Ty R S → Ty R S
  | optional inner => inner.core
  | t => t

def sameReferent [DecidableEq R] [DecidableEq S] (first second : Ty R S) : Bool :=
  match first.referenceOf, second.referenceOf with
  | some left, some right => decide (left = null) || decide (right = null) || decide (left = right)
  | _, _ => false

end Ty

/-! ### Values -/

/-- A value as the machine holds it. The last is the storage of a struct that was never made, which is there under an absent tag. -/
inductive Value (F : Type)
  | bits (n : ℕ)
  | pointer (address : Option ℕ)
  | struct (fields : F)
  | pair (present : Bool) (payload : Value F)
  | vacant

inductive NumberOp
  | integer (op : CastOp)
  | signedToFloat | unsignedToFloat | floatToSigned | floatToUnsigned | floatTrunc | floatExtend

/-- What the machine's instructions and the comparisons of numbers, references that are there and structs give. -/
structure Machine (R S F : Type) where
  cast : NumberOp → PrimitiveKind → PrimitiveKind → ℕ → ℕ
  floatCmpEq : PrimitiveKind → ℕ → ℕ → Bool
  contents : R → ℕ → ℕ → Bool
  structEqual : S → F → F → Bool

variable {R S F : Type} [DecidableEq R] [DecidableEq S] (m : Machine R S F)

def zero : Ty R S → Value F
  | .primitive _ => .bits 0
  | .reference _ | .null => .pointer none
  | .struct _ => .vacant
  | .optional inner => if (Ty.optional inner).referenceOf.isSome then .pointer none else .pair false (zero inner)

def optionalPresence : Value F → Except Stop Bool
  | .pair present _ => .ok present
  | _ => .error .abort

def optionalPayload : Value F → Except Stop (Value F)
  | .pair _ payload => .ok payload
  | _ => .error .abort

/-! ### Converting -/

def numberOp (source target : PrimitiveKind) : Option NumberOp :=
  let s := Casts.Ty.primitive source
  let t := Casts.Ty.primitive target
  if !isFloat source && !isFloat target then some (.integer (castOp s t))
  else if !isFloat source then if s.isSignedType then some .signedToFloat else some .unsignedToFloat
  else if !isFloat target then if t.isSignedType then some .floatToSigned else some .floatToUnsigned
  else if t.bitWidth < s.bitWidth then some .floatTrunc
  else if s.bitWidth < t.bitWidth then some .floatExtend
  else none

def convertNumber (source target : Ty R S) (value : Value F) : Except Stop (Value F) :=
  match source, target, value with
  | .primitive s, .primitive t, .bits n =>
    if !isNumeric s || !isNumeric t then .error .abort
    else match numberOp s t with
      | some op => .ok (.bits (m.cast op s t n))
      | none => .ok (.bits n)
  | _, _, _ => .error .abort

omit [DecidableEq R] [DecidableEq S] in
theorem sizeOf_taggedPayloadOf {t payload : Ty R S} (h : t.taggedPayloadOf = some payload) : sizeOf payload < sizeOf t := by
  cases t with
  | optional inner =>
    simp only [Ty.taggedPayloadOf] at h
    split at h
    · cases h
    · cases h
      simp
  | _ => cases h

def convert (source target : Ty R S) (value : Value F) : Except Stop (Value F) :=
  if source = target then .ok value
  else if source.sameReferent target then .ok value
  else match _ht : target.taggedPayloadOf, _hs : source.taggedPayloadOf with
    | some targetPayload, some sourcePayload =>
      if source.optionalDepth < target.optionalDepth then do .ok (.pair true (← convert source targetPayload value))
      else if source.optionalDepth = target.optionalDepth then do
        if ← optionalPresence value then do
          let payload ← optionalPayload value
          .ok (.pair true (← convert sourcePayload targetPayload payload))
        else .ok (zero target)
      else do convert sourcePayload target (← optionalPayload value)
    | some targetPayload, none =>
      if source = .null then .ok (zero target)
      else if source.optionalDepth < target.optionalDepth then do .ok (.pair true (← convert source targetPayload value))
      else convertNumber m source target value
    | none, some sourcePayload =>
      if target.optionalDepth < source.optionalDepth then do convert sourcePayload target (← optionalPayload value)
      else convertNumber m source target value
    | none, none => convertNumber m source target value
termination_by sizeOf source + sizeOf target
decreasing_by
  all_goals
    first
    | have := sizeOf_taggedPayloadOf _ht
      have := sizeOf_taggedPayloadOf _hs
      omega
    | have := sizeOf_taggedPayloadOf _ht
      omega
    | have := sizeOf_taggedPayloadOf _hs
      omega

/-! ### Comparing -/

def numericCommonType : Ty R S → Ty R S → Option (Ty R S)
  | .optional left, .optional right => (numericCommonType left right).map .optional
  | .optional left, right => (numericCommonType left right).map .optional
  | left, .optional right => (numericCommonType left right).map .optional
  | .primitive left, .primitive right =>
    if !isNumeric left || !isNumeric right then none
    else if left = right then some (.primitive left)
    else if kindWidensTo left right then some (.primitive right)
    else if kindWidensTo right left then some (.primitive left)
    else none
  | _, _ => none

def comparedType (left right : Ty R S) : Ty R S :=
  match numericCommonType left right with
  | some numeric => numeric
  | none => if left.optionalDepth < right.optionalDepth then right else left

def structOf : Ty R S → Option S
  | .struct s => some s
  | _ => none

/-- Two structs compared where they stand. Reading one that was never made goes wrong. -/
def structsEqualAt (s : S) : Value F → Value F → Except Stop Bool
  | .struct x, .struct y => .ok (m.structEqual s x y)
  | _, _ => .error .abort

def compareReferences (r : R) : Value F → Value F → Except Stop Bool
  | .pointer none, .pointer none => .ok true
  | .pointer (some p), .pointer (some q) => .ok (m.contents r p q)
  | .pointer _, .pointer _ => .ok false
  | _, _ => .error .abort

def compareNumbers (kind : PrimitiveKind) : Value F → Value F → Except Stop Bool
  | .bits x, .bits y => .ok (if isFloat kind then m.floatCmpEq kind x y else decide (x = y))
  | _, _ => .error .abort

def taggedPairEqualValues (payloadType : Ty R S) (payloadEquality : Value F → Value F → Except Stop Bool) (left right : Value F) :
    Except Stop Bool := do
  let leftPresent ← optionalPresence left
  let rightPresent ← optionalPresence right
  match structOf payloadType with
  | some s =>
    let samePresence := leftPresent == rightPresent
    if samePresence && leftPresent then structsEqualAt m s (← optionalPayload left) (← optionalPayload right) else .ok samePresence
  | none =>
    let payloadEqual ← payloadEquality (← optionalPayload left) (← optionalPayload right)
    .ok ((leftPresent == rightPresent) && (!leftPresent || payloadEqual))

def payloadEquality : Ty R S → Value F → Value F → Except Stop Bool
  | .optional inner, left, right =>
    if (Ty.optional inner).referenceOf.isSome then payloadEquality inner left right
    else taggedPairEqualValues m inner (payloadEquality inner) left right
  | .reference r, left, right => compareReferences m r left right
  | .primitive kind, left, right => if isNumeric kind || kind = .bool then compareNumbers m kind left right else .error .abort
  | .struct _, _, _ | .null, _, _ => .error .abort

def lowerTagged (leftType rightType : Ty R S) (left right : Value F) : Except Stop Bool :=
  if rightType = .null then do .ok (!(← optionalPresence left))
  else if leftType = .null then do .ok (!(← optionalPresence right))
  else do
    let common := comparedType leftType rightType
    let leftValue ← convert m leftType common left
    let rightValue ← convert m rightType common right
    match common.taggedPayloadOf with
    | some payloadType => taggedPairEqualValues m payloadType (payloadEquality m payloadType) leftValue rightValue
    | none => .error .abort

/-! ### Levels -/

inductive Level (V : Type)
  | bare (value : V)
  | absent
  | present (inner : Level V)

namespace Level
variable {V W : Type}

def lift : ℕ → Level V → Level V
  | 0, a => a
  | n + 1, a => present (lift n a)

def map (f : V → W) : Level V → Level W
  | bare value => bare (f value)
  | absent => absent
  | present inner => present (map f inner)

/-- Whether two values are absent at the same level, or present at as many levels with equal values. -/
def same (equal : V → V → Bool) : Level V → Level V → Bool
  | bare x, bare y => equal x y
  | absent, absent => true
  | present a, present b => same equal a b
  | _, _ => false

theorem same_lift {equal : V → V → Bool} (n : ℕ) (a b : Level V) : same equal (lift n a) (lift n b) = same equal a b := by
  induction n with
  | zero => rfl
  | succ n ih => exact ih

theorem same_iff {equal : V → V → Bool} (a b : Level V) : same equal a b = true ↔
    (∃ n, a = lift n absent ∧ b = lift n absent) ∨ ∃ n x y, a = lift n (bare x) ∧ b = lift n (bare y) ∧ equal x y = true := by
  constructor
  · intro h
    induction a generalizing b with
    | bare x =>
      cases b with
      | bare y => exact .inr ⟨0,x,y,rfl,rfl,h⟩
      | _ => cases h
    | absent =>
      cases b with
      | absent => exact .inl ⟨0,rfl,rfl⟩
      | _ => cases h
    | present a ih =>
      cases b with
      | present b =>
        rcases ih b h with ⟨n,ha,hb⟩ | ⟨n,x,y,ha,hb,hxy⟩
        · exact .inl ⟨n + 1,by rw [ha]; rfl,by rw [hb]; rfl⟩
        · exact .inr ⟨n + 1,x,y,by rw [ha]; rfl,by rw [hb]; rfl,hxy⟩
      | _ => cases h
  · rintro (⟨n,rfl,rfl⟩ | ⟨n,x,y,rfl,rfl,hxy⟩)
    · rw [same_lift]
      rfl
    · rw [same_lift]
      exact hxy

theorem map_id {f : V → V} (h : ∀ v, f v = v) (a : Level V) : map f a = a := by
  induction a with
  | bare v => rw [map,h]
  | absent => rfl
  | present a ih => rw [map,ih]

end Level

def level : Ty R S → Value F → Level (Value F)
  | .optional inner, .pair true payload => .present (level inner payload)
  | .optional _, .pair false _ => .absent
  | .optional _, .pointer none => .absent
  | .optional _, .pointer (some p) => .present (.bare (.pointer (some p)))
  | _, value => .bare value

inductive Holds : Ty R S → Value F → Prop
  | number {kind : PrimitiveKind} {n : ℕ} : Holds (.primitive kind) (.bits n)
  | reference {r : R} {p : ℕ} : Holds (.reference r) (.pointer (some p))
  | struct {s : S} {fields : F} : Holds (.struct s) (.struct fields)
  | nullable {r : R} {address : Option ℕ} : Holds (.optional (.reference r)) (.pointer address)
  | absent {inner : Ty R S} : (Ty.optional inner).taggedPayloadOf = some inner → Holds (.optional inner) (.pair false (zero inner))
  | present {inner : Ty R S} {payload : Value F} : (Ty.optional inner).taggedPayloadOf = some inner → Holds inner payload →
    Holds (.optional inner) (.pair true payload)

/-- The types a conversion goes between: one type under the levels of null, or two numbers. -/
def Meets (source target : Ty R S) : Prop :=
  target.core ≠ .null ∧ (source.core = target.core ∨
    ∃ s t, source.core = .primitive s ∧ target.core = .primitive t ∧ isNumeric s = true ∧ isNumeric t = true)

def convertCore (source target : Ty R S) (value : Value F) : Value F :=
  match source.core, target.core, value with
  | .primitive s, .primitive t, .bits n =>
    if s = t then .bits n
    else match numberOp s t with
      | some op => .bits (m.cast op s t n)
      | none => .bits n
  | _, _, value => value

def equalCore (t : Ty R S) (left right : Value F) : Bool :=
  match t, left, right with
  | .primitive kind, .bits x, .bits y => if isFloat kind then m.floatCmpEq kind x y else decide (x = y)
  | .reference r, .pointer (some p), .pointer (some q) => m.contents r p q
  | .struct s, .struct x, .struct y => m.structEqual s x y
  | _, _, _ => false

/-- The types a comparison is admitted between: one type under the levels of null, or two numbers that share a type. -/
def Comparable (left right : Ty R S) : Prop :=
  left.core ≠ .null ∧ (∀ kind, left.core = .primitive kind → isNumeric kind = true ∨ kind = .bool) ∧
    (left.core = right.core ∨ (numericCommonType left.core right.core).isSome)

/-! ### The cases of a conversion -/

variable {source target t payload : Ty R S} {v w : Value F}

omit [DecidableEq R] [DecidableEq S] in
theorem taggedPayloadOf_eq (h : t.taggedPayloadOf = some payload) : t = .optional payload ∧ t.referenceOf = none := by
  cases t with
  | optional inner =>
    simp only [Ty.taggedPayloadOf] at h
    split at h
    · cases h
    · rename_i hr
      cases h
      exact ⟨rfl,by simpa using hr⟩
  | _ => cases h

omit [DecidableEq R] [DecidableEq S] in
theorem zero_tagged (h : (Ty.optional t).taggedPayloadOf = some t) : (zero (.optional t) : Value F) = .pair false (zero t) := by
  rw [zero,(taggedPayloadOf_eq h).2]
  rfl

omit [DecidableEq R] [DecidableEq S] in
theorem optional_cases (inner : Ty R S) (h : inner.core ≠ .null) :
    (∃ r, inner = .reference r) ∨ (Ty.optional inner).taggedPayloadOf = some inner := by
  cases inner with
  | reference r => exact .inl ⟨r,rfl⟩
  | null => exact absurd rfl h
  | primitive kind => exact .inr rfl
  | struct s => exact .inr rfl
  | optional inner => exact .inr rfl

theorem convert_self (t : Ty R S) (v : Value F) : convert m t t v = .ok v := by
  rw [convert]
  simp

theorem not_sameReferent_left (h : source.referenceOf = none) : source.sameReferent target = false := by
  simp [Ty.sameReferent,h]

theorem not_sameReferent_right (h : target.referenceOf = none) : source.sameReferent target = false := by
  unfold Ty.sameReferent
  rw [h]
  cases source.referenceOf <;> rfl

/-- A deeper target wraps what reaches its payload. -/
theorem convert_deeper (ht : target.taggedPayloadOf = some payload) (hn : source ≠ .null)
    (hd : source.optionalDepth < target.optionalDepth) :
    convert m source target v = (do .ok (.pair true (← convert m source payload v))) := by
  have hne : source ≠ target := by
    rintro rfl
    exact lt_irrefl _ hd
  rw [convert,if_neg hne,not_sameReferent_right (taggedPayloadOf_eq ht).2]
  simp only [Bool.false_eq_true,if_false]
  split <;> rename_i h1 h2 <;> cases ht.symm.trans h1
  · rw [if_pos hd]
  · rw [if_neg hn,if_pos hd]

theorem convert_level {sourcePayload : Ty R S} (ht : target.taggedPayloadOf = some payload)
    (hs : source.taggedPayloadOf = some sourcePayload) (hne : source ≠ target) (hd : source.optionalDepth = target.optionalDepth) :
    convert m source target v = (do
      if ← optionalPresence v then do
        let inner ← optionalPayload v
        .ok (.pair true (← convert m sourcePayload payload inner))
      else .ok (zero target)) := by
  rw [convert,if_neg hne,not_sameReferent_right (taggedPayloadOf_eq ht).2]
  simp only [Bool.false_eq_true,if_false]
  split <;> rename_i h1 h2 <;> cases ht.symm.trans h1 <;> cases hs.symm.trans h2
  rw [if_neg (by omega),if_pos hd]

theorem convert_peel {sourcePayload : Ty R S} (hs : source.taggedPayloadOf = some sourcePayload)
    (hd : target.optionalDepth < source.optionalDepth) :
    convert m source target v = (do convert m sourcePayload target (← optionalPayload v)) := by
  have hne : source ≠ target := by
    rintro rfl
    exact lt_irrefl _ hd
  rw [convert,if_neg hne,not_sameReferent_left (taggedPayloadOf_eq hs).2]
  simp only [Bool.false_eq_true,if_false]
  split <;> rename_i h1 h2 <;> cases hs.symm.trans h2
  · rw [if_neg (by omega),if_neg (by omega)]
  · rw [if_pos hd]

theorem convert_number {s t : PrimitiveKind} (hs : isNumeric s = true) (ht : isNumeric t = true) (n : ℕ) :
    convert m (.primitive s : Ty R S) (.primitive t) (.bits n : Value F) =
      .ok (convertCore m (.primitive s : Ty R S) (.primitive t) (.bits n)) := by
  by_cases hst : s = t
  · subst hst
    rw [convert_self]
    simp [convertCore,Ty.core]
  · rw [convert,if_neg (by simpa using hst)]
    simp only [Ty.sameReferent,Ty.referenceOf,Bool.false_eq_true,if_false,Ty.taggedPayloadOf,convertNumber,hs,ht,Bool.not_true,
      Bool.or_false,convertCore,Ty.core,if_neg hst]
    cases numberOp s t <;> rfl

theorem convert_referent (r : R) (p : ℕ) :
    convert m (.reference r : Ty R S) (.optional (.reference r)) (.pointer (some p) : Value F) = .ok (.pointer (some p)) := by
  rw [convert]
  simp [Ty.sameReferent,Ty.referenceOf]

theorem convert_bare (r : R) (address : Option ℕ) :
    convert m (.optional (.reference r) : Ty R S) (.reference r) (.pointer address : Value F) = .ok (.pointer address) := by
  rw [convert]
  simp [Ty.sameReferent,Ty.referenceOf]

/-! ### What a conversion keeps -/

omit [DecidableEq R] [DecidableEq S] in
theorem convertCore_self (h : source.core = target.core) (v : Value F) : convertCore m source target v = v := by
  unfold convertCore
  rw [h]
  split
  · rename_i s t n h1 h2
    cases h1.symm.trans h2
    rw [if_pos rfl]
  · rfl

omit [DecidableEq R] [DecidableEq S] in
theorem Meets.source_ne (h : Meets source target) : source.core ≠ .null := by
  rcases h.2 with he | ⟨s,t,hs,-⟩
  · rw [he]
    exact h.1
  · rw [hs]
    simp

omit [DecidableEq R] [DecidableEq S] in
theorem depth_zero (h : t.optionalDepth = 0) : t.core = t := by
  cases t with
  | optional inner => simp [Ty.optionalDepth] at h
  | _ => rfl

omit [DecidableEq R] [DecidableEq S] in
theorem depth_succ {n : ℕ} (h : t.optionalDepth = n + 1) : ∃ inner, t = .optional inner ∧ inner.optionalDepth = n ∧ t.core = inner.core := by
  cases t with
  | optional inner => exact ⟨inner,rfl,by simpa [Ty.optionalDepth] using h,rfl⟩
  | _ => simp [Ty.optionalDepth] at h

/-- What a conversion to a type as deep or deeper gives: a value absent at the level the source is absent at, and present at the levels
around. -/
def Lifted (source target : Ty R S) (v : Value F) : Prop :=
  ∃ w, convert m source target v = .ok w ∧ Holds target w ∧
    level target w = Level.lift (target.optionalDepth - source.optionalDepth) (Level.map (convertCore m source target) (level source v))

theorem lifted_self (hv : Holds t v) : Lifted m t t v := by
  refine ⟨v,convert_self m t v,hv,?_⟩
  rw [Nat.sub_self,Level.lift,Level.map_id (convertCore_self m rfl)]

/-- Where no level is to be added and none is there, one number becomes another or nothing is done. -/
theorem lifted_core (hm : Meets source target) (hv : Holds source v) (hs : source.optionalDepth = 0) (ht : target.optionalDepth = 0) :
    Lifted m source target v := by
  obtain ⟨-,he | ⟨a,b,ha,hb,hna,hnb⟩⟩ := hm
  · rw [depth_zero hs,depth_zero ht] at he
    subst he
    exact lifted_self m hv
  · rw [depth_zero hs] at ha
    rw [depth_zero ht] at hb
    subst ha hb
    cases hv with
    | number =>
      rename_i n
      refine ⟨_,convert_number m hna hnb n,?_,rfl⟩
      unfold convertCore
      split
      · split
        · exact .number
        · split <;> exact .number
      · exact .number

omit [DecidableEq R] [DecidableEq S] in
theorem convertCore_optional_left (inner : Ty R S) : convertCore m (.optional inner) target = convertCore m (F := F) inner target := rfl

omit [DecidableEq R] [DecidableEq S] in
theorem convertCore_optional_right (inner : Ty R S) : convertCore m source (.optional inner) = convertCore m (F := F) source inner := rfl

/-- A conversion to a type as deep or deeper keeps the level at which a value is absent, and makes it present at the levels around. -/
theorem convert_lift (hm : Meets source target) (hv : Holds source v) (hd : source.optionalDepth ≤ target.optionalDepth) :
    Lifted m source target v := by
  induction target generalizing source v with
  | primitive _ | reference _ | struct _ => exact lifted_core m hm hv (by simpa [Ty.optionalDepth] using hd) rfl
  | null => exact absurd rfl hm.1
  | optional tp ih =>
    by_cases hsame : source = .optional tp
    · subst hsame
      exact lifted_self m hv
    have hmp : Meets source tp := hm
    rcases optional_cases tp hm.1 with ⟨r,rfl⟩ | htag
    · -- One level over a reference: the source is that reference, and the pointer stays.
      rcases Nat.le_one_iff_eq_zero_or_eq_one.1 hd with hzero | hone
      · have hs : source = .reference r := by
          rw [← depth_zero hzero]
          exact hm.2.resolve_right (by rintro ⟨a,b,-,hb,-⟩; cases hb)
        subst hs
        cases hv with
        | reference =>
          rename_i p
          exact ⟨_,convert_referent m r p,.nullable,rfl⟩
      · obtain ⟨inner,rfl,hdi,hci⟩ := depth_succ hone
        have hi : inner = .reference r := by
          rw [← depth_zero hdi]
          exact hm.2.resolve_right (by rintro ⟨a,b,-,hb,-⟩; cases hb)
        exact absurd (by rw [hi]) hsame
    · rcases Nat.lt_or_eq_of_le hd with hlt | heq
      · obtain ⟨w,hw,hhold,hlevel⟩ := ih hmp hv (by simp only [Ty.optionalDepth] at hlt; omega)
        refine ⟨.pair true w,?_,.present htag hhold,?_⟩
        · rw [convert_deeper m htag (fun hn => hm.source_ne (by rw [hn]; rfl)) hlt,hw]
          rfl
        · have hsub : (Ty.optional tp).optionalDepth - source.optionalDepth = tp.optionalDepth - source.optionalDepth + 1 := by
            simp only [Ty.optionalDepth] at hlt ⊢
            omega
          rw [hsub,level,hlevel,Level.lift,convertCore_optional_right]
      · -- As deep as each other: the payload is converted where there is one.
        obtain ⟨sp,rfl,hdp,-⟩ := depth_succ heq
        have hps : (Ty.optional sp).taggedPayloadOf = some sp := by
          rcases optional_cases sp hm.source_ne with ⟨r,rfl⟩ | hps
          · have htp : tp = .reference r := by
              rw [← depth_zero hdp.symm]
              exact (hm.2.resolve_right (by rintro ⟨a,b,ha,-⟩; cases ha)).symm
            rw [htp] at htag
            cases htag
          · exact hps
        have hstep := convert_level m (v := v) htag hps hsame heq
        have hsub : (Ty.optional tp).optionalDepth - (Ty.optional sp).optionalDepth = 0 := by omega
        rw [Lifted,hstep,hsub]
        cases hv with
        | nullable => cases hps
        | absent =>
          refine ⟨zero (.optional tp),rfl,?_,?_⟩
          · rw [zero_tagged htag]
            exact .absent htag
          · rw [zero_tagged htag]
            rfl
        | present _ hpay =>
          obtain ⟨w,hw,hhold,hlevel⟩ := @ih sp _ hmp hpay hdp.le
          refine ⟨.pair true w,?_,.present htag hhold,?_⟩
          · simp only [optionalPresence,optionalPayload,ok_bind,if_true,hw]
          · rw [hdp,Nat.sub_self,Level.lift] at hlevel
            rw [level,hlevel]
            rfl

/-- A conversion to a shallower type takes a value that is present at the levels too many from under them. -/
theorem convert_peeled (hm : Meets source target) (hv : Holds source v) (hd : target.optionalDepth < source.optionalDepth)
    {inner : Level (Value F)} (hl : level source v = Level.lift (source.optionalDepth - target.optionalDepth) inner) :
    ∃ w, convert m source target v = .ok w ∧ Holds target w ∧ level target w = Level.map (convertCore m source target) inner := by
  induction source generalizing v with
  | primitive _ | reference _ | struct _ | null => cases hd
  | optional sp ih =>
    have hmp : Meets sp target := hm
    have hsub : (Ty.optional sp).optionalDepth - target.optionalDepth = sp.optionalDepth - target.optionalDepth + 1 := by
      simp only [Ty.optionalDepth] at hd ⊢
      omega
    have hle : target.optionalDepth ≤ sp.optionalDepth := by
      simp only [Ty.optionalDepth] at hd
      omega
    rw [hsub,Level.lift] at hl
    rcases optional_cases sp hm.source_ne with ⟨r,rfl⟩ | hps
    · have ht : target = .reference r := by
        rw [← depth_zero (Nat.le_zero.1 hle)]
        exact (hm.2.resolve_right (by rintro ⟨a,b,ha,-⟩; cases ha)).symm
      subst ht
      cases hv with
      | nullable =>
        rename_i address
        cases address with
        | none => cases hl
        | some p =>
          refine ⟨.pointer (some p),convert_bare m r (some p),.reference,?_⟩
          simp only [level,Level.present.injEq] at hl
          rw [Nat.sub_self,Level.lift] at hl
          rw [← hl]
          rfl
      | absent h => cases h
      | present h => cases h
    · cases hv with
      | nullable => cases hps
      | absent => cases hl
      | present _ hpay =>
        rename_i x
        simp only [level,Level.present.injEq] at hl
        rw [convert_peel m hps hd]
        simp only [optionalPayload,ok_bind]
        rcases Nat.lt_or_eq_of_le hle with hlt | heq
        · exact ih hmp hpay hlt hl
        · obtain ⟨w,hw,hhold,hlevel⟩ := convert_lift m hmp hpay heq.symm.le
          refine ⟨w,hw,hhold,?_⟩
          rw [heq,Nat.sub_self,Level.lift] at hl hlevel
          rw [hlevel,hl]
          rfl

theorem convert_null (h : (Ty.optional t).core ≠ .null) :
    ∃ w, convert m .null (.optional t) (.pointer none : Value F) = .ok w ∧ Holds (.optional t) w ∧ level (.optional t) w = .absent := by
  rcases optional_cases t h with ⟨r,rfl⟩ | htag
  · refine ⟨.pointer none,?_,.nullable,rfl⟩
    rw [convert]
    simp [Ty.sameReferent,Ty.referenceOf]
  · refine ⟨.pair false (zero t),?_,.absent htag,rfl⟩
    rw [convert,if_neg (by simp),not_sameReferent_right (taggedPayloadOf_eq htag).2]
    simp only [Bool.false_eq_true,if_false]
    split <;> rename_i h1 h2
    · cases h2
    · rw [if_pos trivial,zero_tagged htag]
    · cases htag.symm.trans h1
    · cases htag.symm.trans h1

/-! ### The type of a comparison -/

def wrap : ℕ → Ty R S → Ty R S
  | 0, t => t
  | n + 1, t => .optional (wrap n t)

omit [DecidableEq R] [DecidableEq S] in
theorem wrap_depth (t : Ty R S) : wrap t.optionalDepth t.core = t := by
  induction t with
  | optional inner ih => rw [Ty.optionalDepth,Ty.core,wrap,ih]
  | _ => rfl

omit [DecidableEq R] [DecidableEq S] in
theorem core_core (t : Ty R S) : t.core.core = t.core := by
  induction t with
  | optional inner ih => exact ih
  | _ => rfl

omit [DecidableEq R] [DecidableEq S] in
theorem depth_core (t : Ty R S) : t.core.optionalDepth = 0 := by
  induction t with
  | optional inner ih => exact ih
  | _ => rfl

omit [DecidableEq R] [DecidableEq S] in
theorem core_wrap (n : ℕ) (t : Ty R S) : (wrap n t).core = t.core := by
  induction n with
  | zero => rfl
  | succ n ih => exact ih

omit [DecidableEq R] [DecidableEq S] in
theorem depth_wrap (n : ℕ) (t : Ty R S) : (wrap n t).optionalDepth = t.optionalDepth + n := by
  induction n with
  | zero => rfl
  | succ n ih => rw [wrap,Ty.optionalDepth,ih,Nat.add_assoc]

omit [DecidableEq R] [DecidableEq S] in
/-- The common number of two types is the one of the types under their levels, under as many levels as either has. -/
theorem numericCommonType_eq (left right : Ty R S) :
    numericCommonType left right = (numericCommonType left.core right.core).map (wrap (max left.optionalDepth right.optionalDepth)) := by
  have hself : ∀ x : Option (Ty R S), x.map (wrap (max 0 0)) = x := by
    intro x
    cases x <;> rfl
  induction left generalizing right with
  | optional left ih =>
    cases right with
    | optional right =>
      rw [numericCommonType,ih right,Option.map_map]
      simp only [Ty.core,Ty.optionalDepth,Nat.add_max_add_right]
      rfl
    | _ =>
      rw [numericCommonType,ih,Option.map_map]
      · simp only [Ty.core,Ty.optionalDepth,Nat.max_zero]
        rfl
      · simp
  | _ =>
    induction right with
    | optional right ih =>
      rw [numericCommonType,ih,Option.map_map]
      · simp only [Ty.core,Ty.optionalDepth,Nat.zero_max]
        rfl
      · simp
    | _ => exact (hself _).symm

omit [DecidableEq R] [DecidableEq S] in
theorem numericCommonType_core {left right common : Ty R S} (hl : left.optionalDepth = 0) (hr : right.optionalDepth = 0)
    (h : numericCommonType left right = some common) :
    ∃ a b c, left = .primitive a ∧ right = .primitive b ∧ common = .primitive c ∧
      isNumeric a = true ∧ isNumeric b = true ∧ isNumeric c = true := by
  cases left with
  | primitive a =>
    cases right with
    | primitive b =>
      simp only [numericCommonType] at h
      split at h
      · cases h
      · rename_i hab
        simp only [Bool.or_eq_true,Bool.not_eq_true',not_or,Bool.not_eq_false] at hab
        have hc : common = .primitive a ∨ common = .primitive b := by
          split at h
          · exact .inl (Option.some.inj h).symm
          · split at h
            · exact .inr (Option.some.inj h).symm
            · split at h
              · exact .inl (Option.some.inj h).symm
              · cases h
        rcases hc with rfl | rfl
        · exact ⟨a,b,a,rfl,rfl,rfl,hab.1,hab.2,hab.1⟩
        · exact ⟨a,b,b,rfl,rfl,rfl,hab.1,hab.2,hab.2⟩
    | optional right => simp [Ty.optionalDepth] at hr
    | _ => simp [numericCommonType] at h
  | optional left => simp [Ty.optionalDepth] at hl
  | _ => cases right <;> simp [numericCommonType,Ty.optionalDepth] at h hr

def comparedCore (left right : Ty R S) : Ty R S := (numericCommonType left.core right.core).getD left.core

omit [DecidableEq R] [DecidableEq S] in
/-- Both sides of a comparison go to a type as deep as the deeper of them, which each of them meets. -/
theorem comparedType_eq {left right : Ty R S} (h : Comparable left right) :
    comparedType left right = wrap (max left.optionalDepth right.optionalDepth) (comparedCore left right) ∧
      (comparedCore left right).optionalDepth = 0 ∧ Meets left (comparedCore left right) ∧ Meets right (comparedCore left right) ∧
      ∀ kind, comparedCore left right = .primitive kind → isNumeric kind = true ∨ kind = .bool := by
  have hcommon := numericCommonType_eq left right
  unfold comparedCore
  cases hc : numericCommonType left.core right.core with
  | some common =>
    obtain ⟨a,b,c,ha,hb,rfl,hna,hnb,hnc⟩ := numericCommonType_core (depth_core left) (depth_core right) hc
    rw [hc] at hcommon
    refine ⟨?_,rfl,⟨by simp [Ty.core],.inr ⟨a,c,ha,rfl,hna,hnc⟩⟩,⟨by simp [Ty.core],.inr ⟨b,c,hb,rfl,hnb,hnc⟩⟩,fun kind hk => ?_⟩
    · unfold comparedType
      rw [hcommon]
      rfl
    · cases hk
      exact .inl hnc
  | none =>
    have hcores : left.core = right.core := h.2.2.resolve_right (by simp [hc])
    rw [hc] at hcommon
    refine ⟨?_,depth_core left,⟨by rw [Option.getD_none,core_core]; exact h.1,.inl (core_core left).symm⟩,
      ⟨by rw [Option.getD_none,core_core]; exact h.1,.inl (by rw [Option.getD_none,core_core,hcores])⟩,h.2.1⟩
    unfold comparedType
    rw [hcommon]
    simp only [Option.map_none,Option.getD_none]
    split
    · rename_i hlt
      rw [Nat.max_eq_right hlt.le,hcores,wrap_depth]
    · rename_i hge
      rw [Nat.max_eq_left (Nat.le_of_not_lt hge),wrap_depth]

/-! ### Comparing level by level -/

omit [DecidableEq R] [DecidableEq S] in
theorem structOf_eq {s : S} (h : structOf t = some s) : t = .struct s := by
  cases t <;> simp_all [structOf]

/-- Whether a value is one of its type, or the zeros that stand for it under an absent tag. -/
def Readable (t : Ty R S) (v : Value F) : Prop := Holds t v ∨ v = zero t

omit [DecidableEq R] [DecidableEq S] in
/-- Payloads are compared without going wrong, those of structs apart, and where both are values the answer is the right one. -/
theorem payloadEquality_ok {t : Ty R S} (hn : t.core ≠ .null)
    (hk : ∀ kind, t.core = .primitive kind → isNumeric kind = true ∨ kind = .bool) (hs : structOf t = none) {a b : Value F}
    (ha : Readable t a) (hb : Readable t b) :
    ∃ e, payloadEquality m t a b = .ok e ∧ (Holds t a → Holds t b → e = Level.same (equalCore m t.core) (level t a) (level t b)) := by
  induction t generalizing a b with
  | null => exact absurd rfl hn
  | struct s => cases hs
  | primitive kind =>
    have hbits : ∀ {v : Value F}, Readable (.primitive kind : Ty R S) v → ∃ n, v = .bits n := by
      rintro v (hv | rfl)
      · cases hv with
        | number => exact ⟨_,rfl⟩
      · exact ⟨0,rfl⟩
    obtain ⟨x,rfl⟩ := hbits ha
    obtain ⟨y,rfl⟩ := hbits hb
    have hkind : (isNumeric kind || decide (kind = .bool)) = true := by
      rcases hk kind rfl with h | h <;> simp [h]
    refine ⟨_,?_,fun _ _ => rfl⟩
    rw [payloadEquality,if_pos (by simpa using hkind),compareNumbers]
    rfl
  | reference r =>
    have hpointer : ∀ {v : Value F}, Readable (.reference r : Ty R S) v → ∃ address, v = .pointer address := by
      rintro v (hv | rfl)
      · cases hv with
        | reference => exact ⟨_,rfl⟩
      · exact ⟨none,rfl⟩
    obtain ⟨x,rfl⟩ := hpointer ha
    obtain ⟨y,rfl⟩ := hpointer hb
    cases x with
    | none =>
      have hno : ¬ Holds (.reference r : Ty R S) (.pointer none : Value F) := fun h => by cases h
      cases y <;> exact ⟨_,rfl,fun h _ => absurd h hno⟩
    | some p =>
      have hno : ¬ Holds (.reference r : Ty R S) (.pointer none : Value F) := fun h => by cases h
      cases y with
      | none => exact ⟨_,rfl,fun _ h => absurd h hno⟩
      | some q => exact ⟨_,rfl,fun _ _ => rfl⟩
  | optional inner ih =>
    rcases optional_cases inner hn with ⟨r,rfl⟩ | htag
    · have hpointer : ∀ {v : Value F}, Readable (.optional (.reference r) : Ty R S) v → ∃ address, v = .pointer address := by
        rintro v (hv | rfl)
        · cases hv with
          | nullable => exact ⟨_,rfl⟩
          | absent h => cases h
          | present h => cases h
        · exact ⟨none,rfl⟩
      obtain ⟨x,rfl⟩ := hpointer ha
      obtain ⟨y,rfl⟩ := hpointer hb
      cases x <;> cases y <;> exact ⟨_,rfl,fun _ _ => rfl⟩
    · have hpair : ∀ {v : Value F}, Readable (.optional inner) v → ∃ present payload, v = .pair present payload ∧
          (present = true → Holds inner payload) ∧ (present = false → payload = zero inner) := by
        rintro v (hv | rfl)
        · cases hv with
          | nullable => cases htag
          | absent => exact ⟨false,_,rfl,by simp,fun _ => rfl⟩
          | present _ h => exact ⟨true,_,rfl,fun _ => h,by simp⟩
        · exact ⟨false,_,zero_tagged htag,by simp,fun _ => rfl⟩
      obtain ⟨l,x,rfl,hlx,hlz⟩ := hpair ha
      obtain ⟨r,y,rfl,hry,hrz⟩ := hpair hb
      have href : (Ty.optional inner).referenceOf.isSome = false := by
        rw [(taggedPayloadOf_eq htag).2]
        rfl
      rw [payloadEquality,href]
      simp only [Bool.false_eq_true,if_false,taggedPairEqualValues,optionalPresence,optionalPayload,ok_bind]
      cases hst : structOf inner with
      | some s =>
        -- The payloads are structs: they are looked at only where both are there.
        obtain rfl := structOf_eq hst
        cases l with
        | false => cases r <;> exact ⟨_,rfl,fun _ _ => rfl⟩
        | true =>
          cases r with
          | false => exact ⟨_,rfl,fun _ _ => rfl⟩
          | true =>
            cases hlx rfl with
            | struct =>
              cases hry rfl with
              | struct => exact ⟨_,rfl,fun _ _ => rfl⟩
      | none =>
        have hreadable : ∀ {present : Bool} {payload : Value F}, (present = true → Holds inner payload) →
            (present = false → payload = zero inner) → Readable inner payload := by
          intro present payload h h'
          cases present with
          | true => exact .inl (h rfl)
          | false => exact .inr (h' rfl)
        obtain ⟨e,he,hsame⟩ := ih hn hk hst (hreadable hlx hlz) (hreadable hry hrz)
        simp only [he,ok_bind]
        refine ⟨_,rfl,fun _ _ => ?_⟩
        cases l with
        | false => cases r <;> rfl
        | true =>
          cases r with
          | false => rfl
          | true => simpa [level,Level.same,Ty.core] using hsame (hlx rfl) (hry rfl)

def comparedLevel (source left right : Ty R S) (v : Value F) : Level (Value F) :=
  Level.lift (max left.optionalDepth right.optionalDepth - source.optionalDepth)
    (Level.map (convertCore m source (comparedCore left right)) (level source v))

omit [DecidableEq R] [DecidableEq S] in
theorem tagged_compared {left right : Ty R S} (h : Comparable left right)
    (ht : left.taggedPayloadOf.isSome ∨ right.taggedPayloadOf.isSome) :
    ∃ payload, wrap (max left.optionalDepth right.optionalDepth) (comparedCore left right) = .optional payload ∧
      (Ty.optional payload).taggedPayloadOf = some payload := by
  obtain ⟨-,hdepth,hl,hr,-⟩ := comparedType_eq h
  have hpos : 0 < max left.optionalDepth right.optionalDepth := by
    rcases ht with ht | ht
    · obtain ⟨p,hp⟩ := Option.isSome_iff_exists.1 ht
      rw [(taggedPayloadOf_eq hp).1]
      simp [Ty.optionalDepth]
    · obtain ⟨p,hp⟩ := Option.isSome_iff_exists.1 ht
      rw [(taggedPayloadOf_eq hp).1]
      simp [Ty.optionalDepth]
  obtain ⟨n,hn⟩ : ∃ n, max left.optionalDepth right.optionalDepth = n + 1 := ⟨_,(Nat.succ_pred_eq_of_pos hpos).symm⟩
  refine ⟨wrap n (comparedCore left right),by rw [hn]; rfl,?_⟩
  rcases optional_cases (wrap n (comparedCore left right)) (by rw [core_wrap]; exact hl.1) with ⟨r,hwrap⟩ | htag
  · -- A pointer on both sides: neither is a pair.
    have hzero : n = 0 := by
      have := congrArg Ty.optionalDepth hwrap
      rw [depth_wrap,hdepth] at this
      simpa [Ty.optionalDepth] using this
    subst hzero
    have hnot : ∀ t : Ty R S, t.optionalDepth ≤ 1 → Meets t (comparedCore left right) → t.taggedPayloadOf = none := by
      intro t hd hm
      have hcore : t.core = .reference r := by
        have hc : comparedCore left right = .reference r := hwrap
        rw [hc] at hm
        exact hm.2.resolve_right (by rintro ⟨a,b,-,hb,-⟩; cases hb)
      rcases Nat.le_one_iff_eq_zero_or_eq_one.1 hd with h0 | h1
      · rw [depth_zero h0] at hcore
        rw [hcore]
        rfl
      · obtain ⟨inner,rfl,hdi,-⟩ := depth_succ h1
        rw [← show inner.core = inner from depth_zero hdi,show inner.core = .reference r from hcore]
        rfl
    have hl' := hnot left (by omega) hl
    have hr' := hnot right (by omega) hr
    simp [hl',hr'] at ht
  · exact htag

/-- `==` looks at no struct that is absent, and is true exactly where both sides are absent at one level, or present at all with equal values. -/
theorem lowerTagged_ok {left right : Ty R S} (h : Comparable left right) (ht : left.taggedPayloadOf.isSome ∨ right.taggedPayloadOf.isSome)
    {a b : Value F} (ha : Holds left a) (hb : Holds right b) : ∃ e, lowerTagged m left right a b = .ok e ∧
      e = Level.same (equalCore m (comparedCore left right)) (comparedLevel m left left right a) (comparedLevel m right left right b) := by
  obtain ⟨htype,hdepth,hl,hr,hk⟩ := comparedType_eq h
  obtain ⟨payload,hwrap,htag⟩ := tagged_compared h ht
  have hcore : (Ty.optional payload).core = comparedCore left right := by
    rw [← hwrap,core_wrap,depth_zero hdepth]
  have hcommonDepth : (Ty.optional payload).optionalDepth = max left.optionalDepth right.optionalDepth := by
    rw [← hwrap,depth_wrap,hdepth,Nat.zero_add]
  have meets : ∀ {t : Ty R S}, Meets t (comparedCore left right) → Meets t (.optional payload) := by
    intro t hm
    unfold Meets
    rw [hcore]
    exact ⟨by rw [← depth_zero hdepth]; exact hm.1,by simpa only [depth_zero hdepth] using hm.2⟩
  have side : ∀ {t : Ty R S} {v : Value F}, Meets t (comparedCore left right) → Holds t v →
      t.optionalDepth ≤ max left.optionalDepth right.optionalDepth →
      ∃ w, convert m t (.optional payload) v = .ok w ∧ Holds (.optional payload) w ∧
        level (.optional payload) w = comparedLevel m t left right v := by
    intro t v hm hv hd
    obtain ⟨w,hw,hhold,hlevel⟩ := convert_lift m (meets hm) hv (by rw [hcommonDepth]; exact hd)
    refine ⟨w,hw,hhold,?_⟩
    have hconvert : convertCore m t (.optional payload) = convertCore m (F := F) t (comparedCore left right) := by
      unfold convertCore
      rw [hcore,depth_zero hdepth]
    rw [hlevel,hcommonDepth,hconvert]
    rfl
  obtain ⟨x,hx,hxhold,hxlevel⟩ := side hl ha (le_max_left _ _)
  obtain ⟨y,hy,hyhold,hylevel⟩ := side hr hb (le_max_right _ _)
  have hnl : left ≠ .null := by
    rintro rfl
    exact hl.source_ne rfl
  have hnr : right ≠ .null := by
    rintro rfl
    exact hr.source_ne rfl
  obtain ⟨e,he,hsame⟩ := payloadEquality_ok m (t := .optional payload) (by rw [hcore,← depth_zero hdepth]; exact hl.1)
    (by rw [hcore]; exact hk) rfl (.inl hxhold) (.inl hyhold)
  have href : (Ty.optional payload).referenceOf.isSome = false := by
    rw [(taggedPayloadOf_eq htag).2]
    rfl
  rw [payloadEquality,href] at he
  refine ⟨e,?_,?_⟩
  · rw [lowerTagged,if_neg hnr,if_neg hnl,htype,hwrap]
    simp only [hx,hy,ok_bind,htag]
    simpa using he
  · rw [hsame hxhold hyhold,hcore,hxlevel,hylevel]

theorem lowerTagged_null (htag : (Ty.optional t).taggedPayloadOf = some t) (hv : Holds (.optional t) v) :
    ∃ e, lowerTagged m (.optional t) .null v (.pointer none) = .ok e ∧ lowerTagged m .null (.optional t) (.pointer none) v = .ok e ∧
      (e = true ↔ level (.optional t) v = .absent) := by
  cases hv with
  | nullable => cases htag
  | absent => exact ⟨true,by simp [lowerTagged,optionalPresence],by simp [lowerTagged,optionalPresence],by simp [level]⟩
  | present => exact ⟨false,by simp [lowerTagged,optionalPresence],by simp [lowerTagged,optionalPresence],by simp [level]⟩

/-- Conversions keep the level at which a value is absent, and `==` tells values apart at every level. -/
theorem levels_kept (m : Machine R S F) :
    (∀ (source target : Ty R S) (v : Value F), Meets source target → Holds source v → source.optionalDepth ≤ target.optionalDepth →
      ∃ w, convert m source target v = .ok w ∧ Holds target w ∧ level target w =
        Level.lift (target.optionalDepth - source.optionalDepth) (Level.map (convertCore m source target) (level source v))) ∧
    (∀ (source target : Ty R S) (v : Value F) (inner : Level (Value F)), Meets source target → Holds source v →
      target.optionalDepth < source.optionalDepth →
      level source v = Level.lift (source.optionalDepth - target.optionalDepth) inner →
      ∃ w, convert m source target v = .ok w ∧ Holds target w ∧ level target w = Level.map (convertCore m source target) inner) ∧
    (∀ t : Ty R S, t.core ≠ .null → ∃ w : Value F, convert m .null (.optional t) (.pointer none) = .ok w ∧ Holds (.optional t) w ∧
      level (.optional t) w = .absent) ∧
    (∀ (left right : Ty R S) (a b : Value F), Comparable left right →
      (left.taggedPayloadOf.isSome ∨ right.taggedPayloadOf.isSome) → Holds left a → Holds right b →
      ∃ e, lowerTagged m left right a b = .ok e ∧ (e = true ↔
        (∃ n, comparedLevel m left left right a = Level.lift n .absent ∧ comparedLevel m right left right b = Level.lift n .absent) ∨
        ∃ n x y, comparedLevel m left left right a = Level.lift n (.bare x) ∧ comparedLevel m right left right b = Level.lift n (.bare y) ∧
          equalCore m (comparedCore left right) x y = true)) ∧
    ∀ (t : Ty R S) (v : Value F), (Ty.optional t).taggedPayloadOf = some t → Holds (.optional t) v →
      ∃ e, lowerTagged m (.optional t) .null v (.pointer none) = .ok e ∧ lowerTagged m .null (.optional t) (.pointer none) v = .ok e ∧
        (e = true ↔ level (.optional t) v = .absent) := by
  refine ⟨fun source target v hm hv hd => convert_lift m hm hv hd,fun source target v inner hm hv hd hl => convert_peeled m hm hv hd hl,
    fun t h => convert_null m h,fun left right a b h ht ha hb => ?_,fun t v htag hv => lowerTagged_null m htag hv⟩
  obtain ⟨e,he,hsame⟩ := lowerTagged_ok m h ht ha hb
  exact ⟨e,he,by rw [hsame,Level.same_iff]⟩

def plainMachine : Machine Unit Unit ℕ where
  cast _ _ _ n := n
  floatCmpEq _ x y := decide (x = y)
  contents _ p q := decide (p = q)
  structEqual _ x y := decide (x = y)

/-- An `int??` whose inner level is absent, and the number 7 brought to it, are absent at different levels. -/
theorem levels_kept_here :
    ∃ e, lowerTagged plainMachine (.optional (.optional (.primitive .int))) (.primitive .short) (.pair true (.pair false (.bits 0))) (.bits 7) =
        .ok e ∧ (e = true ↔
      (∃ n, comparedLevel plainMachine (.optional (.optional (.primitive .int))) (.optional (.optional (.primitive .int))) (.primitive .short)
          (.pair true (.pair false (.bits 0))) = Level.lift n .absent ∧
        comparedLevel plainMachine (.primitive .short) (.optional (.optional (.primitive .int))) (.primitive .short) (.bits 7) =
          Level.lift n .absent) ∨
      ∃ n x y, comparedLevel plainMachine (.optional (.optional (.primitive .int))) (.optional (.optional (.primitive .int))) (.primitive .short)
          (.pair true (.pair false (.bits 0))) = Level.lift n (.bare x) ∧
        comparedLevel plainMachine (.primitive .short) (.optional (.optional (.primitive .int))) (.primitive .short) (.bits 7) =
          Level.lift n (.bare y) ∧
        equalCore plainMachine (comparedCore (.optional (.optional (.primitive .int))) (.primitive .short)) x y = true) :=
  (levels_kept plainMachine).2.2.2.1 _ _ _ _ ⟨by decide,fun kind hk => by cases hk; exact .inl rfl,.inr (by simp [numericCommonType,Ty.core]; decide)⟩
    (.inl rfl) (.present rfl (.absent rfl)) .number

end Ens.Casts.Optionals
