import Ens.Constants.Values
import Mathlib.Data.Rat.Cast.Order
import Mathlib.Data.Set.Basic
import Mathlib.Logic.Relation
import Mathlib.Tactic.NormNum

/-! # The common type of two values

Two values meet at one type: the same one, the wider of two numbers, the one that takes the other, the nullable form of one beside `null`, or the
nearest class both are. Types are the ones of a store, which makes each only once, so an instantiation or a function type is known by its name.
-/
set_option linter.all false
namespace Ens.Unify
open Constants (PrimitiveKind)
open Relation

/-! ### Types -/

inductive Ty (C I T F N : Type)
  | error
  | null
  | primitive (kind : PrimitiveKind)
  | optional (inner : Ty C I T F N)
  | declared (c : C)
  | instantiation (i : I)
  | parameter (p : T)
  | function (signature : F) (shared : Bool)
  | other (n : N)
  deriving DecidableEq

inductive DeclarationKind
  | ofClass | ofInterface | ofStruct
  deriving DecidableEq

section
variable {C I T F N : Type}

def authority (template : I → C) : Ty C I T F N → Option C
  | .declared c => some c
  | .instantiation i => some (template i)
  | _ => none

/-- The declarations of a program. Every base is a class of a class or an interface of an interface, declared without a cycle; a generic one is
named with its arguments there. -/
structure Program (C I T F N : Type) where
  sort : C → DeclarationKind
  template : I → C
  arguments : I → List (Ty C I T F N)
  typeParameterTypes : C → List T
  baseOf : Ty C I T F N → Option (Ty C I T F N)
  interfacesOf : Ty C I T F N → List (Ty C I T F N)
  bounds : T → List (Ty C I T F N)
  depth : C → ℕ
  base_authority : ∀ t b, baseOf t = some b → ∃ c d, authority template t = some c ∧ authority template b = some d ∧ sort d = sort c ∧ depth d < depth c
  base_plain : ∀ t c, baseOf t = some (.declared c) → ∀ i, template i ≠ c

variable [DecidableEq C] [DecidableEq I] [DecidableEq T] [DecidableEq F] [DecidableEq N] (P : Program C I T F N)

def Program.authorityOf (type : Ty C I T F N) : Option C := authority P.template type

def Program.isInterfaceLike (type : Ty C I T F N) : Bool := (P.authorityOf type).any fun c => P.sort c = .ofInterface

def Program.isClassLike (type : Ty C I T F N) : Bool := (P.authorityOf type).any fun c => P.sort c ≠ .ofStruct

def isNumericType : Ty C I T F N → Bool
  | .primitive .bool | .primitive .void => false
  | .primitive _ => true
  | _ => false

def isVoidType : Ty C I T F N → Bool
  | .primitive .void => true
  | _ => false

def bareOf : Ty C I T F N → Ty C I T F N
  | .optional inner => inner
  | t => t

def isOptional : Ty C I T F N → Bool
  | .optional _ => true
  | _ => false

def optionalOf (inner : Ty C I T F N) : Ty C I T F N := if inner = .error then .error else .optional inner

/-! ### Widening -/

def isIntegerKind : PrimitiveKind → Bool
  | .byte | .short | .ushort | .int | .uint | .long | .ulong | .char => true
  | _ => false

def isSignedKind : PrimitiveKind → Bool
  | .short | .int | .long => true
  | _ => false

def isFloatKind : PrimitiveKind → Bool
  | .float | .double => true
  | _ => false

def integerBitWidth : PrimitiveKind → ℕ
  | .byte => 8
  | .short | .ushort => 16
  | .int | .uint | .char => 32
  | .long | .ulong => 64
  | _ => 0

def floatBitWidth : PrimitiveKind → ℕ
  | .float => 32
  | .double => 64
  | _ => 0

def kindWidensTo (source target : PrimitiveKind) : Bool :=
  if source = target then false
  else if source = .char ∧ (target = .int ∨ target = .uint) then true
  else if isIntegerKind source ∧ isIntegerKind target then
    if isSignedKind source then isSignedKind target && integerBitWidth source < integerBitWidth target
    else integerBitWidth source < integerBitWidth target
  else if isIntegerKind source ∧ isFloatKind target then
    if source = .char then false else integerBitWidth source ≤ if floatBitWidth target = 32 then 24 else 53
  else if isFloatKind source ∧ isFloatKind target then floatBitWidth source < floatBitWidth target
  else false

def widensTo : Ty C I T F N → Ty C I T F N → Bool
  | .optional source, .optional target => widensTo source target
  | .primitive source, .primitive target => kindWidensTo source target
  | _, _ => false

def sharedFunctionWidens : Ty C I T F N → Ty C I T F N → Bool
  | .function source true, .function target false => source = target
  | _, _ => false

/-! ### Bases and interfaces -/

def Program.links (type : Ty C I T F N) : ℕ := ((P.authorityOf type).elim 0 P.depth) + 2

def Program.isSubclassFrom (ancestor : Ty C I T F N) : ℕ → List (Ty C I T F N) → Option (Ty C I T F N) → Bool
  | 0, _, _ | _ + 1, _, none => false
  | links + 1, seen, some current =>
    if current ∈ seen then false
    else if current = ancestor then true
    else match P.authorityOf current with
      | none => false
      | some c => if .declared c = ancestor then true else Program.isSubclassFrom ancestor links (seen ++ [current]) (P.baseOf current)

def Program.isSubclassOf (derived ancestor : Ty C I T F N) : Bool := P.isSubclassFrom ancestor (P.links derived) [] (some derived)

def Program.ladderFrom : ℕ → List (Ty C I T F N) → Option (Ty C I T F N) → List (Ty C I T F N)
  | 0, ladder, _ | _ + 1, ladder, none => ladder
  | links + 1, ladder, some current =>
    if current ∈ ladder then ladder else Program.ladderFrom links (ladder ++ [current]) (P.baseOf current)

def Program.interfaceLadderOf (interfaceType : Ty C I T F N) : List (Ty C I T F N) := P.ladderFrom (P.links interfaceType) [] (some interfaceType)

def Program.conformsFrom (interfaceType : Ty C I T F N) : ℕ → List (Ty C I T F N) → Option (Ty C I T F N) → Bool
  | 0, _, _ | _ + 1, _, none => false
  | links + 1, seen, some current =>
    if current ∈ seen then false
    else if current = interfaceType ∨ ∃ implemented ∈ P.interfacesOf current, interfaceType ∈ P.interfaceLadderOf implemented then true
    else match P.authorityOf current with
      | none => false
      | some c => if .declared c = interfaceType then true else Program.conformsFrom interfaceType links (seen ++ [current]) (P.baseOf current)

def Program.conformsTo (source interfaceType : Ty C I T F N) : Bool := P.conformsFrom interfaceType (P.links source) [] (some source)

def Program.isSubclassOrConforms (source target : Ty C I T F N) : Bool :=
  if P.isInterfaceLike target then P.conformsTo source target else P.isSubclassOf source target

def Program.classBoundOf : Ty C I T F N → Option (Ty C I T F N)
  | .parameter p => (P.bounds p).find? fun bound => P.isClassLike bound && !P.isInterfaceLike bound
  | _ => none

def Program.classOrBoundOf (type : Ty C I T F N) : Ty C I T F N := (P.classBoundOf type).getD type

/-! ### What takes a value of what -/

def Program.isSelfInstantiation : Ty C I T F N → Ty C I T F N → Bool
  | .instantiation i, .declared c => P.template i = c && P.arguments i = (P.typeParameterTypes c).map .parameter
  | _, _ => false

def Program.accepts (target source : Ty C I T F N) : Bool :=
  target = .error || source = .error || target = source || P.isSelfInstantiation target source || widensTo source target ||
    sharedFunctionWidens source target || (P.isClassLike target && P.isClassLike source && P.isSubclassOrConforms source target)

def Program.wraps (inner : Ty C I T F N) (fills : Ty C I T F N → Bool) : Ty C I T F N → Bool
  | .null => true
  | .optional source =>
    P.isClassLike inner && P.isClassLike (P.classOrBoundOf source) && P.isSubclassOrConforms (P.classOrBoundOf source) inner ||
      isOptional inner && fills (.optional source)
  | source => fills source

/-- A type parameter is taken where the class it is bounded by is, which has no bound of its own. -/
def Program.isAssignableStrict : Ty C I T F N → Ty C I T F N → Bool
  | .optional inner, source =>
    P.accepts (.optional inner) source || P.wraps inner (Program.isAssignableStrict inner) source ||
      (P.classBoundOf source).any fun bound => P.accepts (.optional inner) bound || P.wraps inner (Program.isAssignableStrict inner) bound
  | target, source => P.accepts target source || (P.classBoundOf source).any (P.accepts target)

/-! ### The common type -/

def commonNumber (left right : Ty C I T F N) : Option (Ty C I T F N) :=
  if !isNumericType left || !isNumericType right then none
  else if left = right then some left
  else if widensTo left right then some right
  else if widensTo right left then some left
  else none

def numericCommonType : Ty C I T F N → Ty C I T F N → Option (Ty C I T F N)
  | .optional left, .optional right => (numericCommonType left right).map optionalOf
  | .optional left, right => (numericCommonType left right).map optionalOf
  | left, .optional right => (numericCommonType left right).map optionalOf
  | left, right => commonNumber left right

def Program.isConcreteClassValue (type : Ty C I T F N) : Bool := P.isClassLike type && !P.isInterfaceLike type

def Program.nearestFrom (right : Ty C I T F N) : ℕ → Option (Ty C I T F N) → Option (Ty C I T F N)
  | 0, _ | _ + 1, none => none
  | links + 1, some current => if P.isSubclassOf right current then some current else Program.nearestFrom right links (P.baseOf current)

def Program.nearestCommonBase (left right : Ty C I T F N) : Option (Ty C I T F N) :=
  if !P.isConcreteClassValue left || !P.isConcreteClassValue right then none else P.nearestFrom right (P.links left) (some left)

def besideNull : Ty C I T F N → Ty C I T F N → Option (Ty C I T F N)
  | .null, .null => none
  | .null, typed | typed, .null => if isVoidType typed then none else some (optionalOf typed)
  | _, _ => none

def Program.unifyBases (left right : Ty C I T F N) : Option (Ty C I T F N) :=
  (P.nearestCommonBase (P.classOrBoundOf (bareOf left)) (P.classOrBoundOf (bareOf right))).map fun base =>
    if isOptional left || isOptional right then optionalOf base else base

def Program.unifyValueTypes (left right : Ty C I T F N) : Option (Ty C I T F N) :=
  if left = right then some left
  else match numericCommonType left right with
    | some numeric => some numeric
    | none =>
      if P.isAssignableStrict left right then some left
      else if P.isAssignableStrict right left then some right
      else match besideNull left right with
        | some typed => some typed
        | none => P.unifyBases left right

-- derives the equations once, for all the proofs below
attribute [local grind =] widensTo sharedFunctionWidens Program.isSubclassFrom Program.ladderFrom Program.conformsFrom
  Program.isSelfInstantiation Program.isAssignableStrict commonNumber numericCommonType Program.nearestFrom besideNull Program.unifyValueTypes

end

/-! ### The values of numbers -/

inductive Number
  | rational (q : ℚ)
  | negativeZero
  | infinity (negative : Bool)
  | nan

def integersOf (kind : PrimitiveKind) : Set ℤ :=
  if kind = .char then {n | 0 ≤ n ∧ n < 0xD800 ∨ 0xE000 ≤ n ∧ n ≤ 0x10FFFF}
  else if isSignedKind kind then {n | -2 ^ (integerBitWidth kind - 1) ≤ n ∧ n < 2 ^ (integerBitWidth kind - 1)}
  else {n | 0 ≤ n ∧ n < 2 ^ integerBitWidth kind}

def floatFormat (kind : PrimitiveKind) : ℕ × ℤ × ℤ := if floatBitWidth kind = 32 then (24,-149,104) else (53,-1074,971)

def rationalsOf (kind : PrimitiveKind) : Set ℚ :=
  {q | ∃ m e : ℤ, |m| < 2 ^ (floatFormat kind).1 ∧ (floatFormat kind).2.1 ≤ e ∧ e ≤ (floatFormat kind).2.2 ∧ q = m * 2 ^ e}

def numbersOfKind (kind : PrimitiveKind) : Set Number :=
  {x | if isIntegerKind kind then ∃ n ∈ integersOf kind, x = .rational n
    else isFloatKind kind = true ∧ ∀ q, x = .rational q → q ∈ rationalsOf kind}

theorem integersOf_widens {a b : PrimitiveKind} (ha : isIntegerKind a = true) (hb : isIntegerKind b = true) (h : kindWidensTo a b = true)
    (hchar : ¬ (a = .ushort ∧ b = .char)) : integersOf a ⊆ integersOf b := by
  intro n hn
  cases a <;> cases b <;> first | exact absurd h (by decide) | exact absurd ha (by decide) | exact absurd hb (by decide) |
    (simp [integersOf,isSignedKind,integerBitWidth] at hn hchar ⊢; try omega)

theorem integersOf_float {a b : PrimitiveKind} (ha : isIntegerKind a = true) (hb : isFloatKind b = true) (h : kindWidensTo a b = true) {n : ℤ}
    (hn : n ∈ integersOf a) : (n : ℚ) ∈ rationalsOf b := by
  refine ⟨n,0,?_,?_,?_,by simp⟩
  · rw [abs_lt]
    cases a <;> cases b <;> first | exact absurd h (by decide) | exact absurd ha (by decide) | exact absurd hb (by decide) |
      (simp [integersOf,isSignedKind,integerBitWidth,floatFormat,floatBitWidth] at hn ⊢; omega)
  · unfold floatFormat
    split <;> decide
  · unfold floatFormat
    split <;> decide

theorem numbersOfKind_widens {a b : PrimitiveKind} (h : kindWidensTo a b = true) (hchar : ¬ (a = .ushort ∧ b = .char)) :
    numbersOfKind a ⊆ numbersOfKind b := by
  intro x hx
  unfold numbersOfKind at hx ⊢
  rw [Set.mem_ofPred_eq] at hx ⊢
  by_cases ha : isIntegerKind a = true
  · rw [if_pos ha] at hx
    obtain ⟨n,hn,rfl⟩ := hx
    by_cases hb : isIntegerKind b = true
    · rw [if_pos hb]
      exact ⟨n,integersOf_widens ha hb h hchar hn,rfl⟩
    · rw [if_neg hb]
      have hfloat : isFloatKind b = true := by
        cases a <;> cases b <;> first | rfl | exact absurd h (by decide) | exact absurd rfl hb
      refine ⟨hfloat,?_⟩
      rintro q ⟨⟩
      exact integersOf_float ha hfloat h hn
  · rw [if_neg ha] at hx
    have hkinds : a = .float ∧ b = .double := by
      cases a <;> cases b <;> first | exact ⟨rfl,rfl⟩ | exact absurd h (by decide) | exact absurd rfl ha
    obtain ⟨rfl,rfl⟩ := hkinds
    refine ⟨rfl,fun q hq => ?_⟩
    obtain ⟨m,e,hm,hlow,hhigh,rfl⟩ := hx.2 q hq
    simp only [floatFormat,floatBitWidth,if_true] at hm hlow hhigh
    refine ⟨m,e,?_,?_,?_,rfl⟩
    · simp only [floatFormat,floatBitWidth]
      exact hm.trans (by norm_num)
    · simp only [floatFormat,floatBitWidth]
      norm_num
      omega
    · simp only [floatFormat,floatBitWidth]
      norm_num
      omega

/-! ### The common type of numbers -/

section
variable {C I T F N : Type} [DecidableEq C] [DecidableEq I] [DecidableEq T] [DecidableEq F] [DecidableEq N] {P : Program C I T F N}
  {l r t u : Ty C I T F N}

section
omit [DecidableEq C] [DecidableEq I] [DecidableEq T] [DecidableEq F] [DecidableEq N]

def coreOf : Ty C I T F N → Ty C I T F N
  | .optional inner => coreOf inner
  | t => t

def nullLevels : Ty C I T F N → ℕ
  | .optional inner => nullLevels inner + 1
  | _ => 0

def nullable (core : Ty C I T F N) : ℕ → Ty C I T F N
  | 0 => core
  | n + 1 => .optional (nullable core n)

theorem nullable_coreOf (t : Ty C I T F N) : nullable (coreOf t) (nullLevels t) = t := by
  induction t with
  | optional inner ih => rw [coreOf,nullLevels,nullable,ih]
  | error | null | primitive | declared | instantiation | parameter | function | other => rfl

def numbersOf (t : Ty C I T F N) : Set Number :=
  match coreOf t with
  | .primitive kind => numbersOfKind kind
  | _ => ∅

theorem coreOf_nullable (kind : PrimitiveKind) (n : ℕ) : coreOf (nullable (.primitive kind : Ty C I T F N) n) = .primitive kind := by
  induction n with
  | zero => rfl
  | succ n ih => exact ih

theorem widensTo_nullable (a b : PrimitiveKind) (n : ℕ) :
    widensTo (nullable (.primitive a : Ty C I T F N) n) (nullable (.primitive b) n) = kindWidensTo a b := by
  induction n with
  | zero => rfl
  | succ n ih => exact ih

theorem kindWidensTo_asymm {a b : PrimitiveKind} (h : kindWidensTo a b = true) : kindWidensTo b a = false := by
  cases a <;> cases b <;> first | rfl | exact absurd h (by decide)

end

omit [DecidableEq C] [DecidableEq I] [DecidableEq T] [DecidableEq F] [DecidableEq N] in
theorem exists_kind (h : isNumericType t = true) : ∃ kind, t = .primitive kind := by
  cases t with
  | primitive kind => exact ⟨kind,rfl⟩
  | error | null | optional | declared | instantiation | parameter | function | other => cases h

theorem commonNumber_spec (h : commonNumber l r = some t) : ∃ a b c, l = .primitive a ∧ r = .primitive b ∧ t = .primitive c ∧
    (a = c ∨ kindWidensTo a c = true) ∧ (b = c ∨ kindWidensTo b c = true) ∧ (c = a ∨ c = b) := by
  unfold commonNumber at h
  split at h
  · cases h
  · next hnum =>
    simp only [Bool.or_eq_true,Bool.not_eq_true',not_or,Bool.not_eq_false] at hnum
    obtain ⟨a,rfl⟩ := exists_kind hnum.1
    obtain ⟨b,rfl⟩ := exists_kind hnum.2
    split at h
    · next heq =>
      cases h
      cases heq
      exact ⟨a,a,a,rfl,rfl,rfl,.inl rfl,.inl rfl,.inl rfl⟩
    · split at h
      · next hw =>
        cases h
        exact ⟨a,b,b,rfl,rfl,rfl,.inr hw,.inl rfl,.inr rfl⟩
      · split at h
        · next hw =>
          cases h
          exact ⟨a,b,a,rfl,rfl,rfl,.inl rfl,.inr hw,.inl rfl⟩
        · cases h

theorem commonNumber_comm (l r : Ty C I T F N) : commonNumber l r = commonNumber r l := by
  unfold commonNumber
  by_cases hl : isNumericType l = true
  · by_cases hr : isNumericType r = true
    · obtain ⟨a,rfl⟩ := exists_kind hl
      obtain ⟨b,rfl⟩ := exists_kind hr
      by_cases hab : a = b
      · rw [hab]
      · have hne : (.primitive a : Ty C I T F N) ≠ .primitive b := fun h => hab (by cases h; rfl)
        simp only [hl,hr,hne,hne.symm,Bool.not_true,Bool.or_self,Bool.false_eq_true,if_false]
        cases hw : widensTo (.primitive a : Ty C I T F N) (.primitive b) with
        | true => rw [show widensTo (.primitive b : Ty C I T F N) (.primitive a) = false from kindWidensTo_asymm hw]; rfl
        | false => rfl
    · simp [hr]
  · simp [hl]

theorem optionalOf_nullable (kind : PrimitiveKind) (n : ℕ) :
    optionalOf (nullable (.primitive kind : Ty C I T F N) n) = nullable (.primitive kind) (n + 1) := by
  cases n with
  | zero => rfl
  | succ n => rfl

theorem map_optionalOf (l r : Ty C I T F N) (n : ℕ) :
    ((commonNumber l r).map (nullable · n)).map optionalOf = (commonNumber l r).map (nullable · (n + 1)) := by
  cases h : commonNumber l r with
  | none => rfl
  | some t =>
    obtain ⟨_,_,c,-,-,rfl,-⟩ := commonNumber_spec h
    exact congrArg some (optionalOf_nullable c n)

omit [DecidableEq C] [DecidableEq I] [DecidableEq T] [DecidableEq F] [DecidableEq N] in
theorem coreOf_bare (h : ∀ inner, t = .optional inner → False) : nullLevels t = 0 ∧ coreOf t = t := by
  cases t with
  | optional inner => exact absurd rfl (h inner)
  | error | null | primitive | declared | instantiation | parameter | function | other => exact ⟨rfl,rfl⟩

theorem numericCommonType_eq (l r : Ty C I T F N) :
    numericCommonType l r = (commonNumber (coreOf l) (coreOf r)).map (nullable · (max (nullLevels l) (nullLevels r))) := by
  fun_induction numericCommonType l r with
  | case1 left right ih =>
    rw [ih,map_optionalOf]
    simp only [coreOf,nullLevels,Nat.add_max_add_right]
  | case2 left right hright ih =>
    rw [ih,map_optionalOf,(coreOf_bare hright).1]
    simp only [coreOf,nullLevels,Nat.max_zero]
  | case3 left right hleft ih =>
    rw [ih,map_optionalOf,(coreOf_bare hleft).1]
    simp only [coreOf,nullLevels,Nat.zero_max]
  | case4 left right hboth hleft hright =>
    rw [(coreOf_bare hleft).1,(coreOf_bare hleft).2,(coreOf_bare hright).1,(coreOf_bare hright).2]
    cases commonNumber left right with
    | none => rfl
    | some t => rfl

theorem numericCommonType_comm (l r : Ty C I T F N) : numericCommonType l r = numericCommonType r l := by
  rw [numericCommonType_eq,numericCommonType_eq,commonNumber_comm,Nat.max_comm]

theorem numericCommonType_spec (h : numericCommonType l r = some t) : ∃ a b c n m, l = nullable (.primitive a) n ∧ r = nullable (.primitive b) m ∧
    t = nullable (.primitive c) (max n m) ∧ (a = c ∨ kindWidensTo a c = true) ∧ (b = c ∨ kindWidensTo b c = true) ∧ (c = a ∨ c = b) := by
  rw [numericCommonType_eq] at h
  obtain ⟨core,hcore,rfl⟩ := Option.map_eq_some_iff.1 h
  obtain ⟨a,b,c,ha,hb,rfl,hac,hbc,hone⟩ := commonNumber_spec hcore
  refine ⟨a,b,c,nullLevels l,nullLevels r,?_,?_,rfl,hac,hbc,hone⟩
  · rw [← ha,nullable_coreOf]
  · rw [← hb,nullable_coreOf]

omit [DecidableEq C] [DecidableEq I] [DecidableEq T] [DecidableEq F] [DecidableEq N] in
/-- The values of a number that meets another are values of the common type, a `ushort` beside a `char` aside. -/
theorem numbersOf_common {a c : PrimitiveKind} (n m : ℕ) (h : a = c ∨ kindWidensTo a c = true) (hchar : ¬ (a = .ushort ∧ c = .char)) :
    numbersOf (nullable (.primitive a : Ty C I T F N) n) ⊆ numbersOf (nullable (.primitive c : Ty C I T F N) m) := by
  unfold numbersOf
  rw [coreOf_nullable,coreOf_nullable]
  rcases h with rfl | h
  · exact fun _ hx => hx
  · exact numbersOfKind_widens h hchar

/-! ### What a type takes -/

theorem assign_of_accepts (h : P.accepts t u = true) : P.isAssignableStrict t u = true := by
  cases t with
  | error | null | primitive | optional | declared | instantiation | parameter | function | other => simp [Program.isAssignableStrict,h]

theorem assign_refl (P : Program C I T F N) (t : Ty C I T F N) : P.isAssignableStrict t t = true := assign_of_accepts (by simp [Program.accepts])

theorem assign_of_wraps (h : P.wraps t (P.isAssignableStrict t) u = true) : P.isAssignableStrict (.optional t) u = true := by
  simp [Program.isAssignableStrict,h]

theorem assign_of_widens (h : widensTo u t = true) : P.isAssignableStrict t u = true := assign_of_accepts (by simp [Program.accepts,h])

theorem assign_nullable {a c : PrimitiveKind} (h : a = c ∨ kindWidensTo a c = true) {n m : ℕ} (hnm : n ≤ m) :
    P.isAssignableStrict (nullable (.primitive c) m) (nullable (.primitive a) n) = true := by
  induction m with
  | zero =>
    obtain rfl : n = 0 := by omega
    rcases h with rfl | h
    · exact assign_refl P _
    · exact assign_of_widens h
  | succ m ih =>
    rcases Nat.lt_or_ge m n with hlt | hle
    · obtain rfl : n = m + 1 := by omega
      rcases h with rfl | h
      · exact assign_refl P _
      · exact assign_of_widens ((widensTo_nullable a c (m + 1)).trans h)
    · refine assign_of_wraps ?_
      cases n with
      | zero => exact ih hle
      | succ n =>
        have hinner : isOptional (nullable (.primitive c : Ty C I T F N) m) = true := by
          cases m with
          | zero => omega
          | succ m => rfl
        have hfills := ih hle
        simp only [nullable] at hfills ⊢
        simp [Program.wraps,hinner,hfills]

/-! ### Chains of bases -/

/-- A type is another or has it in its chain of bases. -/
def Above (P : Program C I T F N) (t u : Ty C I T F N) : Prop := ReflTransGen (fun a b => P.baseOf a = some b) t u

/-- What stands for an ancestor: itself, or an instantiation for the generic declaration. -/
def Stands (P : Program C I T F N) (u a : Ty C I T F N) : Prop := u = a ∨ ∃ c, P.authorityOf u = some c ∧ .declared c = a

def Program.depthOf (P : Program C I T F N) (t : Ty C I T F N) : ℕ := (P.authorityOf t).elim 0 P.depth

def Program.sortOf (P : Program C I T F N) (t : Ty C I T F N) : Option DeclarationKind := (P.authorityOf t).map P.sort

section
omit [DecidableEq C] [DecidableEq I] [DecidableEq T] [DecidableEq F] [DecidableEq N]

theorem base_step (h : P.baseOf t = some u) : P.sortOf u = P.sortOf t ∧ (∃ c, P.authorityOf t = some c) ∧ (∃ c, P.authorityOf u = some c) ∧
    P.depthOf u < P.depthOf t := by
  obtain ⟨c,d,hc,hd,hsort,hdepth⟩ := P.base_authority t u h
  simp only [Program.sortOf,Program.depthOf,Program.authorityOf,hc,hd]
  exact ⟨by simp [hsort],⟨c,rfl⟩,⟨d,rfl⟩,hdepth⟩

theorem Above.sortOf (h : Above P t u) : P.sortOf u = P.sortOf t := by
  induction h with
  | refl => rfl
  | tail _ hstep ih => rw [(base_step hstep).1,ih]

theorem Above.eq_or_lt (h : Above P t u) : t = u ∨ P.depthOf u < P.depthOf t := by
  induction h with
  | refl => exact .inl rfl
  | tail _ hstep ih =>
    have hless := (base_step hstep).2.2.2
    rcases ih with rfl | ih
    · exact .inr hless
    · exact .inr (hless.trans ih)

theorem Above.linear {v : Ty C I T F N} (h : Above P t u) (h' : Above P t v) : Above P u v ∨ Above P v u :=
  ReflTransGen.total_of_right_unique (fun _ _ _ hb hc => Option.some.inj (hb.symm.trans hc)) h h'

theorem Above.antisymm (h : Above P t u) (h' : Above P u t) : t = u := by
  rcases h.eq_or_lt with rfl | hlt
  · rfl
  · rcases h'.eq_or_lt with rfl | hlt'
    · rfl
    · omega

theorem Stands.depthOf (h : Stands P t u) : P.depthOf u = P.depthOf t := by
  rcases h with rfl | ⟨c,hc,rfl⟩
  · rfl
  · simp only [Program.depthOf,hc]
    rfl

end

theorem isSubclassFrom_iff {a : Ty C I T F N} {links : ℕ} {seen : List (Ty C I T F N)} (ht : ∃ c, P.authorityOf t = some c)
    (hlinks : P.depthOf t < links) (hseen : ∀ s ∈ seen, P.depthOf t < P.depthOf s) :
    P.isSubclassFrom a links seen (some t) = true ↔ ∃ u, Above P t u ∧ Stands P u a := by
  induction links generalizing t seen with
  | zero => omega
  | succ links ih =>
    obtain ⟨c,hc⟩ := ht
    have hnew : t ∉ seen := fun hin => Nat.lt_irrefl _ (hseen t hin)
    rw [Program.isSubclassFrom,if_neg hnew]
    by_cases hself : t = a
    · rw [if_pos hself]
      exact ⟨fun _ => ⟨t,.refl,.inl hself⟩,fun _ => rfl⟩
    rw [if_neg hself,hc]
    dsimp only
    by_cases hdeclared : .declared c = a
    · rw [if_pos hdeclared]
      exact ⟨fun _ => ⟨t,.refl,.inr ⟨c,hc,hdeclared⟩⟩,fun _ => rfl⟩
    rw [if_neg hdeclared]
    have hnot : ¬ Stands P t a := by
      rintro (h | ⟨c',hc',h⟩)
      · exact hself h
      · rw [hc] at hc'
        cases hc'
        exact hdeclared h
    cases hb : P.baseOf t with
    | none =>
      have hfalse : P.isSubclassFrom a links (seen ++ [t]) none = false := by cases links <;> rfl
      rw [hfalse]
      refine ⟨fun h => absurd h (by simp),fun ⟨u,hu,hstands⟩ => ?_⟩
      rcases ReflTransGen.cases_head hu with rfl | ⟨b,hstep,-⟩
      · exact absurd hstands hnot
      · rw [hb] at hstep
        cases hstep
    | some b =>
      obtain ⟨-,-,hauth,hless⟩ := base_step hb
      rw [ih hauth (by omega) ?_]
      · constructor
        · rintro ⟨u,hu,hstands⟩
          exact ⟨u,hu.head hb,hstands⟩
        · rintro ⟨u,hu,hstands⟩
          rcases ReflTransGen.cases_head hu with rfl | ⟨b',hstep,hrest⟩
          · exact absurd hstands hnot
          · rw [hb] at hstep
            cases hstep
            exact ⟨u,hrest,hstands⟩
      · intro s hs
        rcases List.mem_append.1 hs with hs | hs
        · exact hless.trans (hseen s hs)
        · rw [List.mem_singleton.1 hs]
          exact hless

theorem isSubclassOf_iff {a : Ty C I T F N} (ht : ∃ c, P.authorityOf t = some c) :
    P.isSubclassOf t a = true ↔ ∃ u, Above P t u ∧ Stands P u a :=
  isSubclassFrom_iff ht (by unfold Program.links Program.depthOf; omega) (by simp)

theorem nearestFrom_spec {right : Ty C I T F N} {links : ℕ} (hlinks : P.depthOf t < links) :
    match P.nearestFrom right links (some t) with
    | some u => Above P t u ∧ P.isSubclassOf right u = true ∧ ∀ v, Above P t v → P.isSubclassOf right v = true → Above P u v
    | none => ∀ v, Above P t v → P.isSubclassOf right v = false := by
  induction links generalizing t with
  | zero => omega
  | succ links ih =>
    rw [Program.nearestFrom]
    by_cases hsub : P.isSubclassOf right t = true
    · rw [if_pos hsub]
      exact ⟨.refl,hsub,fun v hv _ => hv⟩
    rw [if_neg hsub]
    have hbelow : ∀ v, Above P t v → P.isSubclassOf right v = true → ∃ b, P.baseOf t = some b ∧ Above P b v := by
      intro v hv hright
      rcases ReflTransGen.cases_head hv with rfl | ⟨b,hb,hrest⟩
      · exact absurd hright hsub
      · exact ⟨b,hb,hrest⟩
    cases hb : P.baseOf t with
    | none =>
      have hnone : P.nearestFrom right links none = none := by cases links <;> rfl
      rw [hnone]
      intro v hv
      by_contra hright
      obtain ⟨b,hb',-⟩ := hbelow v hv (by simpa using hright)
      rw [hb] at hb'
      cases hb'
    | some b =>
      have hrest := @ih b (by have := (base_step hb).2.2.2; omega)
      cases hnear : P.nearestFrom right links (some b) with
      | none =>
        rw [hnear] at hrest
        intro v hv
        by_contra hright
        obtain ⟨b',hb',hv'⟩ := hbelow v hv (by simpa using hright)
        rw [hb] at hb'
        cases hb'
        exact hright (hrest v hv')
      | some u =>
        rw [hnear] at hrest
        refine ⟨hrest.1.head hb,hrest.2.1,fun v hv hright => ?_⟩
        obtain ⟨b',hb',hv'⟩ := hbelow v hv hright
        rw [hb] at hb'
        cases hb'
        exact hrest.2.2 v hv' hright

/-! ### Meeting at a class -/

section
omit [DecidableEq C] [DecidableEq I] [DecidableEq T] [DecidableEq F] [DecidableEq N]

theorem isConcrete_iff : P.isConcreteClassValue t = true ↔ P.sortOf t = some .ofClass := by
  unfold Program.isConcreteClassValue Program.isClassLike Program.isInterfaceLike Program.sortOf
  cases P.authorityOf t with
  | none => simp
  | some c => cases hs : P.sort c <;> simp [hs]

theorem authority_of_concrete (h : P.isConcreteClassValue t = true) : ∃ c, P.authorityOf t = some c := by
  rw [isConcrete_iff,Program.sortOf,Option.map_eq_some_iff] at h
  exact h.imp fun _ hc => hc.1

theorem concrete_bound (h : P.isConcreteClassValue t = true) : P.classBoundOf t = none := by
  obtain ⟨c,hc⟩ := authority_of_concrete h
  cases t with
  | parameter => cases hc
  | error | null | primitive | optional | declared | instantiation | function | other => rfl

theorem Above.concrete (h : Above P t u) (ht : P.isConcreteClassValue t = true) : P.isConcreteClassValue u = true := by
  rw [isConcrete_iff] at ht ⊢
  rw [h.sortOf,ht]

end

theorem sub_of_above (ht : P.isConcreteClassValue t = true) (h : Above P t u) : P.isSubclassOf t u = true :=
  (isSubclassOf_iff (authority_of_concrete ht)).2 ⟨u,h,.inl rfl⟩

/-- A class takes what is taken whole, and what is bounded by such a class. -/
theorem assign_class (ht : P.isConcreteClassValue t = true) :
    P.isAssignableStrict t u = (P.accepts t u || (P.classBoundOf u).any (P.accepts t)) := by
  obtain ⟨c,hc⟩ := authority_of_concrete ht
  cases t with
  | declared | instantiation => simp [Program.isAssignableStrict]
  | error | null | primitive | optional | parameter | function | other => cases hc

theorem accepts_of_sub (ht : P.isConcreteClassValue t = true) (hu : P.isConcreteClassValue u = true) (h : P.isSubclassOf u t = true) :
    P.accepts t u = true := by
  simp only [Program.isConcreteClassValue,Bool.and_eq_true,Bool.not_eq_true'] at ht hu
  simp [Program.accepts,Program.isSubclassOrConforms,ht.1,ht.2,hu.1,h]

theorem assign_up {c : Ty C I T F N} (hc : P.isConcreteClassValue c = true) (ht : P.isConcreteClassValue (P.classOrBoundOf t) = true)
    (h : P.isSubclassOf (P.classOrBoundOf t) c = true) : P.isAssignableStrict c t = true := by
  unfold Program.classOrBoundOf at ht h
  cases hb : P.classBoundOf t with
  | none =>
    rw [hb] at ht h
    exact assign_of_accepts (accepts_of_sub hc ht h)
  | some b =>
    rw [hb] at ht h
    have hbound : P.accepts c b = true := accepts_of_sub hc ht h
    rw [assign_class hc,hb]
    simp [hbound]

theorem assign_up_nullable {c : Ty C I T F N} (hc : P.isConcreteClassValue c = true)
    (ht : P.isConcreteClassValue (P.classOrBoundOf (bareOf t)) = true) (h : P.isSubclassOf (P.classOrBoundOf (bareOf t)) c = true) :
    P.isAssignableStrict (.optional c) t = true := by
  refine assign_of_wraps ?_
  cases t with
  | optional inner =>
    simp only [bareOf,Program.isConcreteClassValue,Bool.and_eq_true,Bool.not_eq_true'] at hc ht h
    simp [Program.wraps,Program.isSubclassOrConforms,hc.1,hc.2,ht.1,h]
  | null => cases ht
  | error | primitive | declared | instantiation | parameter | function | other => exact assign_up hc ht h

theorem nearestCommonBase_some {c : Ty C I T F N} (h : P.nearestCommonBase t u = some c) : P.isConcreteClassValue t = true ∧
    P.isConcreteClassValue u = true ∧ Above P t c ∧ P.isSubclassOf u c = true ∧ ∀ v, Above P t v → P.isSubclassOf u v = true → Above P c v := by
  unfold Program.nearestCommonBase at h
  split at h
  · cases h
  · next hcon =>
    simp only [Bool.or_eq_true,Bool.not_eq_true',not_or,Bool.not_eq_false] at hcon
    have hspec := @nearestFrom_spec _ _ _ _ _ _ _ _ _ _ P t u (P.links t) (by unfold Program.links Program.depthOf; omega)
    rw [h] at hspec
    exact ⟨hcon.1,hcon.2,hspec⟩

theorem nearestCommonBase_none (h : P.nearestCommonBase t u = none) (ht : P.isConcreteClassValue t = true) (hu : P.isConcreteClassValue u = true)
    {v : Ty C I T F N} (hv : Above P t v) : P.isSubclassOf u v = false := by
  have hspec := @nearestFrom_spec _ _ _ _ _ _ _ _ _ _ P t u (P.links t) (by unfold Program.links Program.depthOf; omega)
  simp only [Program.nearestCommonBase,ht,hu,Bool.not_true,Bool.or_self,Bool.false_eq_true,if_false] at h
  rw [h] at hspec
  exact hspec v hv

/-- A generic class without its arguments, and a type with an instantiation of it in its chain. -/
def Instanced (P : Program C I T F N) (t u : Ty C I T F N) : Prop :=
  ∃ c i, t = .declared c ∧ P.sort c = .ofClass ∧ Above P u (.instantiation i) ∧ P.template i = c

/-- Where no declaration stands for an instantiation, the shared classes are those in both chains. -/
theorem sub_iff_above {v : Ty C I T F N} (ht : P.isConcreteClassValue t = true) (hu : P.isConcreteClassValue u = true) (hfree : ¬ Instanced P t u)
    (hv : Above P t v) : P.isSubclassOf u v = true ↔ Above P u v := by
  rw [isSubclassOf_iff (authority_of_concrete hu)]
  refine ⟨?_,fun h => ⟨v,h,.inl rfl⟩⟩
  rintro ⟨w,hw,rfl | ⟨c,hc,rfl⟩⟩
  · exact hw
  · cases w with
    | declared d =>
      cases hc
      exact hw
    | instantiation i =>
      have htemplate : P.template i = c := Option.some.inj hc
      rcases ReflTransGen.cases_tail hv with rfl | ⟨b,-,hb⟩
      · rw [isConcrete_iff] at ht
        exact absurd ⟨c,i,rfl,Option.some.inj ht,hw,htemplate⟩ hfree
      · exact absurd htemplate (P.base_plain b c hb i)
    | error | null | primitive | optional | parameter | function | other => cases hc

theorem nearestCommonBase_comm (hfree : ¬ Instanced P t u) (hfree' : ¬ Instanced P u t) : P.nearestCommonBase t u = P.nearestCommonBase u t := by
  have hone : ∀ {t u c : Ty C I T F N}, ¬ Instanced P t u → ¬ Instanced P u t → P.nearestCommonBase t u = some c → P.nearestCommonBase u t = some c := by
    intro t u c hfree hfree' h
    obtain ⟨ht,hu,habove,hsub,hmin⟩ := nearestCommonBase_some h
    have hother := (sub_iff_above ht hu hfree habove).1 hsub
    cases h' : P.nearestCommonBase u t with
    | none =>
      have hno := nearestCommonBase_none h' hu ht hother
      rw [sub_of_above ht habove] at hno
      cases hno
    | some d =>
      obtain ⟨-,-,habove',hsub',hmin'⟩ := nearestCommonBase_some h'
      have hdt := (sub_iff_above hu ht hfree' habove').1 hsub'
      have hcd : Above P c d := hmin d hdt (sub_of_above hu habove')
      have hdc : Above P d c := hmin' c hother (sub_of_above ht habove)
      rw [hcd.antisymm hdc]
  cases h : P.nearestCommonBase t u with
  | some c => exact (hone hfree hfree' h).symm
  | none =>
    cases h' : P.nearestCommonBase u t with
    | none => rfl
    | some d =>
      rw [hone hfree' hfree h'] at h
      cases h

/-! ### The common type of two values -/

section
omit [DecidableEq C] [DecidableEq I] [DecidableEq T] [DecidableEq F] [DecidableEq N]

theorem concrete_ne_error (h : P.isConcreteClassValue t = true) : t ≠ .error := by
  rintro rfl
  cases h

end

theorem besideNull_comm (l r : Ty C I T F N) : besideNull l r = besideNull r l := by
  cases l <;> cases r <;> rfl

theorem besideNull_none (hl : l ≠ .null) (hr : r ≠ .null) : besideNull l r = none := by
  cases l <;> cases r <;> first | rfl | exact absurd rfl hl | exact absurd rfl hr

theorem besideNull_left (hr : r ≠ .null) : besideNull .null r = if isVoidType r then none else some (optionalOf r) := by
  cases r <;> first | rfl | exact absurd rfl hr

theorem besideNull_sound (h : besideNull l r = some t) (hl : P.isAssignableStrict l r = false) (hr : P.isAssignableStrict r l = false) :
    P.isAssignableStrict t l = true ∧ P.isAssignableStrict t r = true := by
  have hone : ∀ typed : Ty C I T F N, typed ≠ .null → P.isAssignableStrict typed .null = false →
      P.isAssignableStrict (optionalOf typed) .null = true ∧ P.isAssignableStrict (optionalOf typed) typed = true := by
    intro typed hnull hno
    cases typed with
    | null => exact absurd rfl hnull
    | optional inner =>
      rw [assign_of_wraps rfl] at hno
      cases hno
    | error => exact absurd hno (by simp [Program.isAssignableStrict,Program.accepts])
    | primitive | declared | instantiation | parameter | function | other => exact ⟨assign_of_wraps rfl,assign_of_wraps (assign_refl P _)⟩
  have hgives : ∀ {l r : Ty C I T F N}, l = .null → besideNull l r = some t → r ≠ .null ∧ t = optionalOf r := by
    rintro l r rfl h
    have hnull : r ≠ .null := by
      rintro rfl
      cases h
    rw [besideNull_left hnull] at h
    split at h
    · cases h
    · exact ⟨hnull,(Option.some.inj h).symm⟩
  by_cases hlnull : l = .null
  · obtain ⟨hnull,rfl⟩ := hgives hlnull h
    subst hlnull
    exact hone r hnull hr
  · by_cases hrnull : r = .null
    · obtain ⟨hnull,rfl⟩ := hgives hrnull ((besideNull_comm r l).trans h)
      subst hrnull
      exact (hone l hnull hl).symm
    · rw [besideNull_none hlnull hrnull] at h
      cases h

/-- The types of two values meet: at one that takes both, alike in both orders, with no number lost. -/
structure Meet (P : Program C I T F N) (l r : Ty C I T F N) : Prop where
  takes : ∀ t, P.unifyValueTypes l r = some t → P.isAssignableStrict t l = true ∧ P.isAssignableStrict t r = true
  both : (P.unifyValueTypes l r).isSome = (P.unifyValueTypes r l).isSome
  alike : ∀ t u, P.unifyValueTypes l r = some t → P.unifyValueTypes r l = some u →
    P.isAssignableStrict t u = true ∧ P.isAssignableStrict u t = true
  numbers : ∀ t, numericCommonType l r = some t → numbersOf l ⊆ numbersOf t ∧ numbersOf r ⊆ numbersOf t

/-- A `ushort` beside a `char`, whatever `?` they have. -/
def Surrogates (l r : Ty C I T F N) : Prop := coreOf l = .primitive .ushort ∧ coreOf r = .primitive .char

/-- A generic class without its arguments beside a type that has an instantiation of it in its chain, neither taking the other. -/
def Unapplied (P : Program C I T F N) (l r : Ty C I T F N) : Prop :=
  P.isAssignableStrict l r = false ∧ P.isAssignableStrict r l = false ∧ Instanced P (P.classOrBoundOf (bareOf l)) (P.classOrBoundOf (bareOf r))

theorem unifyValueTypes_numeric (hne : l ≠ r) (h : numericCommonType l r = some t) : P.unifyValueTypes l r = some t := by
  simp [Program.unifyValueTypes,hne,h]

theorem unifyValueTypes_rest (hne : l ≠ r) (hn : numericCommonType l r = none) (hl : P.isAssignableStrict l r = false)
    (hr : P.isAssignableStrict r l = false) : P.unifyValueTypes l r = (besideNull l r).or (P.unifyBases l r) := by
  simp only [Program.unifyValueTypes,hne,hn,hl,hr,if_false,Bool.false_eq_true]
  cases besideNull l r with
  | none => rfl
  | some t => rfl

theorem unifyBases_takes (h : P.unifyBases l r = some t) : P.isAssignableStrict t l = true ∧ P.isAssignableStrict t r = true := by
  obtain ⟨c,hc,rfl⟩ := Option.map_eq_some_iff.1 h
  obtain ⟨hl,hr,habove,hsub,-⟩ := nearestCommonBase_some hc
  have hcon := habove.concrete hl
  have hsub' := sub_of_above hl habove
  have hoptional : optionalOf c = .optional c := if_neg (concrete_ne_error hcon)
  split
  · rw [hoptional]
    exact ⟨assign_up_nullable hcon hl hsub',assign_up_nullable hcon hr hsub⟩
  · next hnone =>
    simp only [Bool.or_eq_true,not_or,Bool.not_eq_true] at hnone
    have hbare : ∀ {t : Ty C I T F N}, isOptional t = false → bareOf t = t := by
      intro t ht
      cases t with
      | optional => cases ht
      | error | null | primitive | declared | instantiation | parameter | function | other => rfl
    rw [hbare hnone.1] at hl hsub'
    rw [hbare hnone.2] at hr hsub
    exact ⟨assign_up hcon hl hsub',assign_up hcon hr hsub⟩

theorem unifyBases_comm (hfree : ¬ Instanced P (P.classOrBoundOf (bareOf l)) (P.classOrBoundOf (bareOf r)))
    (hfree' : ¬ Instanced P (P.classOrBoundOf (bareOf r)) (P.classOrBoundOf (bareOf l))) : P.unifyBases l r = P.unifyBases r l := by
  unfold Program.unifyBases
  rw [nearestCommonBase_comm hfree hfree',Bool.or_comm]

theorem unifyValueTypes_takes (h : P.unifyValueTypes l r = some t) : P.isAssignableStrict t l = true ∧ P.isAssignableStrict t r = true := by
  by_cases hne : l = r
  · subst hne
    simp only [Program.unifyValueTypes,if_true,Option.some.injEq] at h
    subst h
    exact ⟨assign_refl P l,assign_refl P l⟩
  cases hn : numericCommonType l r with
  | some numeric =>
    rw [unifyValueTypes_numeric hne hn] at h
    cases h
    obtain ⟨a,b,c,n,m,rfl,rfl,rfl,hac,hbc,-⟩ := numericCommonType_spec hn
    exact ⟨assign_nullable hac (Nat.le_max_left ..),assign_nullable hbc (Nat.le_max_right ..)⟩
  | none =>
    cases hl : P.isAssignableStrict l r with
    | true =>
      simp only [Program.unifyValueTypes,hne,hn,hl,if_true,if_false,Option.some.injEq] at h
      subst h
      exact ⟨assign_refl P l,hl⟩
    | false =>
      cases hr : P.isAssignableStrict r l with
      | true =>
        simp only [Program.unifyValueTypes,hne,hn,hl,hr,if_true,if_false,Bool.false_eq_true,Option.some.injEq] at h
        subst h
        exact ⟨hr,assign_refl P r⟩
      | false =>
        rw [unifyValueTypes_rest hne hn hl hr] at h
        cases hnull : besideNull l r with
        | some typed =>
          rw [hnull] at h
          cases h
          exact besideNull_sound hnull hl hr
        | none =>
          rw [hnull] at h
          exact unifyBases_takes h

theorem unifyValueTypes_alike (h : ¬ Unapplied P l r) (h' : ¬ Unapplied P r l) : P.unifyValueTypes l r = P.unifyValueTypes r l ∨
    P.isAssignableStrict l r = true ∧ P.isAssignableStrict r l = true ∧ P.unifyValueTypes l r = some l ∧ P.unifyValueTypes r l = some r := by
  by_cases hne : l = r
  · subst hne
    exact .inl rfl
  have hne' : r ≠ l := fun he => hne he.symm
  cases hn : numericCommonType l r with
  | some numeric =>
    have hn' : numericCommonType r l = some numeric := by rw [numericCommonType_comm,hn]
    exact .inl ((unifyValueTypes_numeric hne hn).trans (unifyValueTypes_numeric hne' hn').symm)
  | none =>
    have hn' : numericCommonType r l = none := by rw [numericCommonType_comm,hn]
    cases hl : P.isAssignableStrict l r with
    | true =>
      have hleft : P.unifyValueTypes l r = some l := by simp [Program.unifyValueTypes,hne,hn,hl]
      cases hr : P.isAssignableStrict r l with
      | true => exact .inr ⟨rfl,rfl,hleft,by simp [Program.unifyValueTypes,hne',hn',hr]⟩
      | false => exact .inl (hleft.trans (by simp [Program.unifyValueTypes,hne',hn',hl,hr]))
    | false =>
      cases hr : P.isAssignableStrict r l with
      | true => exact .inl (by simp [Program.unifyValueTypes,hne,hne',hn,hn',hl,hr])
      | false =>
        rw [unifyValueTypes_rest hne hn hl hr,unifyValueTypes_rest hne' hn' hr hl,besideNull_comm,
          unifyBases_comm (fun hi => h ⟨hl,hr,hi⟩) (fun hi => h' ⟨hr,hl,hi⟩)]
        exact .inl rfl

/-! ### Where the types do not meet -/

section
omit [DecidableEq C] [DecidableEq I] [DecidableEq T] [DecidableEq F] [DecidableEq N]

theorem coreOf_class {c : C} (h : P.classOrBoundOf (bareOf t) = .declared c) : isNumericType (coreOf t) = false := by
  have hbare : ∀ {u : Ty C I T F N}, P.classOrBoundOf u = .declared c → isNumericType (coreOf u) = false := by
    intro u hu
    cases u with
    | primitive | optional => cases hu
    | error | null | declared | instantiation | parameter | function | other => rfl
  cases t with
  | optional inner => exact @hbare inner h
  | error | null | primitive | declared | instantiation | parameter | function | other => exact hbare h

theorem Above.ne_null {i : I} (h : Above P (P.classOrBoundOf (bareOf t)) (.instantiation i)) : t ≠ .null := by
  rintro rfl
  rcases h.eq_or_lt with hnull | hlt
  · cases hnull
  · exact absurd hlt (Nat.not_lt_zero _)

end

theorem nearestCommonBase_self (ht : P.isConcreteClassValue t = true) (hu : P.isConcreteClassValue u = true) (h : P.isSubclassOf u t = true) :
    P.nearestCommonBase t u = some t := by
  simp [Program.nearestCommonBase,Program.links,Program.nearestFrom,ht,hu,h]

theorem not_takes_lower {c : C} (hc : P.isConcreteClassValue (.declared c) = true) (hu : P.isConcreteClassValue u = true)
    (hless : P.depthOf u < P.depthOf (.declared c)) :
    P.isAssignableStrict (.declared c) u = false ∧ P.isAssignableStrict (.optional (.declared c)) (.optional u) = false := by
  have hsub : P.isSubclassOf u (.declared c) = false := by
    by_contra hsub
    obtain ⟨w,hw,hstands⟩ := (isSubclassOf_iff (authority_of_concrete hu)).1 (by simpa using hsub)
    have hdepth := hstands.depthOf
    rcases hw.eq_or_lt with rfl | hlt
    · omega
    · omega
  have hne : .declared c ≠ u := by
    rintro rfl
    exact Nat.lt_irrefl _ hless
  have hbound := concrete_bound hu
  obtain ⟨d,hd⟩ := authority_of_concrete hu
  simp only [Program.isConcreteClassValue,Bool.and_eq_true,Bool.not_eq_true'] at hc
  cases u with
  | declared | instantiation =>
    constructor
    · simp [Program.isAssignableStrict,Program.accepts,hne,Program.isSelfInstantiation,widensTo,sharedFunctionWidens,
        Program.isSubclassOrConforms,hc.2,hsub,hbound]
    · simp [Program.isAssignableStrict,Program.accepts,hne,Program.isSelfInstantiation,widensTo,sharedFunctionWidens,Program.isClassLike,
        Program.authorityOf,authority,Program.wraps,isOptional,Program.isSubclassOrConforms,hc.2,hsub,Program.classOrBoundOf,Program.classBoundOf]
  | error | null | primitive | optional | parameter | function | other => cases hd

theorem Unapplied.differ (h : Unapplied P l r) (hboth : (P.unifyValueTypes l r).isSome = (P.unifyValueTypes r l).isSome) :
    ∃ t u, P.unifyValueTypes l r = some t ∧ P.unifyValueTypes r l = some u ∧ P.isAssignableStrict t u = false := by
  obtain ⟨hl,hr,c,i,hX,hsort,hY,htemplate⟩ := h
  have hne : l ≠ r := by
    rintro rfl
    rw [assign_refl] at hl
    cases hl
  have hn : numericCommonType l r = none := by
    rw [numericCommonType_eq]
    simp [commonNumber,coreOf_class hX]
  have hn' : numericCommonType r l = none := by rw [numericCommonType_comm,hn]
  have hlnull : l ≠ .null := by
    rintro rfl
    cases hX
  have hnull : besideNull l r = none := besideNull_none hlnull hY.ne_null
  rw [unifyValueTypes_rest hne hn hl hr,unifyValueTypes_rest (fun he => hne he.symm) hn' hr hl,besideNull_comm r l,hnull,Option.none_or,
    Option.none_or] at hboth ⊢
  have hXcon : P.isConcreteClassValue (.declared c) = true := isConcrete_iff.2 (congrArg some hsort)
  have hYcon : P.isConcreteClassValue (P.classOrBoundOf (bareOf r)) = true := by
    rw [isConcrete_iff,← hY.sortOf]
    simp [Program.sortOf,Program.authorityOf,authority,htemplate,hsort]
  have hsub : P.isSubclassOf (P.classOrBoundOf (bareOf r)) (.declared c) = true :=
    (isSubclassOf_iff (authority_of_concrete hYcon)).2 ⟨_,hY,.inr ⟨c,congrArg some htemplate,rfl⟩⟩
  have hnear := nearestCommonBase_self hXcon hYcon hsub
  unfold Program.unifyBases at hboth ⊢
  rw [hX,hnear] at hboth ⊢
  cases hother : P.nearestCommonBase (P.classOrBoundOf (bareOf r)) (.declared c) with
  | none =>
    rw [hother] at hboth
    cases hboth
  | some d =>
    obtain ⟨-,-,habove,hsubX,-⟩ := nearestCommonBase_some hother
    have hdcon := habove.concrete hYcon
    have hdX : d ≠ .declared c := by
      rintro rfl
      have hsame : P.depthOf (.declared c) = P.depthOf (.instantiation i) := by
        simp [Program.depthOf,Program.authorityOf,authority,htemplate]
      rcases habove.linear hY with hfork | hfork
      · rcases hfork.eq_or_lt with he | hlt
        · cases he
        · omega
      · rcases hfork.eq_or_lt with he | hlt
        · cases he
        · omega
    have hless : P.depthOf d < P.depthOf (.declared c) := by
      obtain ⟨x,hx,hstands⟩ := (isSubclassOf_iff (authority_of_concrete hXcon)).1 hsubX
      have hdepth := hstands.depthOf
      rcases hx.eq_or_lt with rfl | hlt
      · rcases hstands with he | ⟨c',hc',he⟩
        · exact absurd he.symm hdX
        · cases hc'
          exact absurd he.symm hdX
      · omega
    have hno := not_takes_lower hXcon hdcon hless
    have hwrap : ∀ wrapped : Bool, P.isAssignableStrict (if wrapped then optionalOf (.declared c) else .declared c)
        (if wrapped then optionalOf d else d) = false := by
      intro wrapped
      cases wrapped with
      | false => exact hno.1
      | true =>
        have hwrapped : optionalOf d = .optional d := if_neg (concrete_ne_error hdcon)
        exact hwrapped ▸ hno.2
    refine ⟨_,_,rfl,rfl,?_⟩
    rw [Bool.or_comm (isOptional r)]
    exact hwrap _

theorem Surrogates.lose (h : Surrogates l r) : ∃ t, numericCommonType l r = some t ∧ ¬ numbersOf l ⊆ numbersOf t := by
  refine ⟨nullable (.primitive .char) (max (nullLevels l) (nullLevels r)),?_,fun hsub => ?_⟩
  · rw [numericCommonType_eq,h.1,h.2]
    simp [commonNumber,isNumericType,widensTo,kindWidensTo,isIntegerKind,isSignedKind,integerBitWidth]
  · have hin : Number.rational (0xD800 : ℤ) ∈ numbersOf l := by
      unfold numbersOf
      rw [h.1]
      exact ⟨0xD800,by simp [integersOf,isSignedKind,integerBitWidth],rfl⟩
    have hout := hsub hin
    unfold numbersOf at hout
    rw [coreOf_nullable] at hout
    obtain ⟨n,hn,he⟩ := hout
    have hn' : (0xD800 : ℤ) = n := by exact_mod_cast Number.rational.inj he
    subst hn'
    simp [integersOf] at hn

theorem numbersOf_meet (h : ¬ Surrogates l r) (h' : ¬ Surrogates r l) (ht : numericCommonType l r = some t) :
    numbersOf l ⊆ numbersOf t ∧ numbersOf r ⊆ numbersOf t := by
  obtain ⟨a,b,c,n,m,rfl,rfl,rfl,hac,hbc,hone⟩ := numericCommonType_spec ht
  refine ⟨numbersOf_common n _ hac ?_,numbersOf_common m _ hbc ?_⟩
  · rintro ⟨rfl,rfl⟩
    rcases hone with he | rfl
    · cases he
    · exact h ⟨coreOf_nullable _ n,coreOf_nullable _ m⟩
  · rintro ⟨rfl,rfl⟩
    rcases hone with rfl | he
    · exact h' ⟨coreOf_nullable _ m,coreOf_nullable _ n⟩
    · cases he

/-- Two types meet but where a `ushort` is beside a `char`, or a generic class without arguments beside a class under an instantiation of it. -/
theorem meet_iff (P : Program C I T F N) (l r : Ty C I T F N) :
    Meet P l r ↔ ¬ (Surrogates l r ∨ Surrogates r l ∨ Unapplied P l r ∨ Unapplied P r l) := by
  constructor
  · rintro hmeet (h | h | h | h)
    · obtain ⟨t,ht,hlose⟩ := h.lose
      exact hlose (hmeet.numbers t ht).1
    · obtain ⟨t,ht,hlose⟩ := h.lose
      exact hlose (hmeet.numbers t (by rw [numericCommonType_comm,ht])).2
    · obtain ⟨t,u,ht,hu,hno⟩ := h.differ hmeet.both
      rw [(hmeet.alike t u ht hu).1] at hno
      cases hno
    · obtain ⟨t,u,ht,hu,hno⟩ := h.differ hmeet.both.symm
      rw [(hmeet.alike u t hu ht).2] at hno
      cases hno
  · intro h
    simp only [not_or] at h
    obtain ⟨hs,hs',hu,hu'⟩ := h
    refine ⟨fun t ht => unifyValueTypes_takes ht,?_,?_,fun t ht => numbersOf_meet hs hs' ht⟩
    · rcases unifyValueTypes_alike hu hu' with he | ⟨-,-,hl,hr⟩
      · rw [he]
      · rw [hl,hr]
        rfl
    · intro t u ht hu''
      rcases unifyValueTypes_alike hu hu' with he | ⟨hlr,hrl,hl,hr⟩
      · rw [he,hu''] at ht
        cases ht
        exact ⟨assign_refl P _,assign_refl P _⟩
      · rw [hl] at ht
        rw [hr] at hu''
        cases ht
        cases hu''
        exact ⟨hlr,hrl⟩

end

inductive Boxes
  | box | intBox
  deriving DecidableEq

def boxes : Program Boxes Unit Unit Empty Empty where
  sort _ := .ofClass
  template _ := .box
  arguments _ := [.primitive .int]
  typeParameterTypes
    | .box => [()]
    | .intBox => []
  baseOf
    | .declared .intBox => some (.instantiation ())
    | _ => none
  interfacesOf _ := []
  bounds _ := []
  depth
    | .box => 0
    | .intBox => 1
  base_authority := by
    intro t b h
    split at h
    · cases h
      exact ⟨.intBox,.box,rfl,rfl,rfl,by decide⟩
    · cases h
  base_plain := by
    intro t c h
    split at h <;> cases h

/-- A `ushort` and a `char` meet at `char`, and `this` of `Box` meets an `IntBox?` in one order only. -/
theorem not_meet : ¬ Meet boxes (.primitive .ushort) (.primitive .char) ∧ ¬ Meet boxes (.declared .box) (.optional (.declared .intBox)) := by
  constructor
  · intro h
    have hsurrogates : Surrogates (.primitive .ushort : Ty Boxes Unit Unit Empty Empty) (.primitive .char) := ⟨rfl,rfl⟩
    obtain ⟨t,ht,hlose⟩ := hsurrogates.lose
    exact hlose (h.numbers t ht).1
  · intro h
    have hbase : boxes.baseOf (.declared .intBox) = some (.instantiation ()) := rfl
    have hunapplied : Unapplied boxes (.declared .box) (.optional (.declared .intBox)) :=
      ⟨by decide,by decide,.box,(),rfl,rfl,.single hbase,rfl⟩
    obtain ⟨t,u,ht,hu,hno⟩ := hunapplied.differ h.both
    rw [(h.alike t u ht hu).1] at hno
    cases hno

end Ens.Unify
