import Ens.Constants.Evaluate
import Ens.Constants.IntegerLiteral

/-! # Integer arithmetic of constants

What a tree of integer literals and operators comes to in unbounded integers, and that the evaluation of it comes to the same as long as
every step has room.
-/
namespace Ens.Constants
variable {F : Type}

inductive Arithmetic
  | add | sub | mul | div | rem
  deriving DecidableEq

def Arithmetic.operator : Arithmetic → Operator
  | .add => .plus
  | .sub => .minus
  | .mul => .star
  | .div => .slash
  | .rem => .percent

def Arithmetic.divides : Arithmetic → Bool
  | .div | .rem => true
  | _ => false

def Arithmetic.exactly : Arithmetic → ℤ → ℤ → Option ℤ
  | .add, a, b => some (a + b)
  | .sub, a, b => some (a - b)
  | .mul, a, b => some (a * b)
  | .div, a, b => if b = 0 then none else some (a.tdiv b)
  | .rem, a, b => if b = 0 then none else some (a.tmod b)

inductive Tree
  | literal (text : Name) (value : ℕ) (spells : Spells text value)
  | parenthesized (inner : Tree)
  | signed (negates : Bool) (operand : Tree)
  | combined (arithmetic : Arithmetic) (left right : Tree)

namespace Tree

def toExpr : Tree → Expr
  | .literal text _ _ => .literal (.integer text)
  | .parenthesized inner => .parenthesized inner.toExpr
  | .signed negates operand => .prefixed (if negates then .minus else .plus) operand.toExpr
  | .combined arithmetic left right => .binary arithmetic.operator left.toExpr right.toExpr

def exactly : Tree → Option ℤ
  | .literal _ value _ => some value
  | .parenthesized inner => inner.exactly
  | .signed negates operand => operand.exactly.map fun z => if negates then -z else z
  | .combined arithmetic left right => left.exactly.bind fun a => right.exactly.bind (arithmetic.exactly a)

def steps : Tree → List Tree
  | .literal text value spells => [.literal text value spells]
  | .parenthesized inner => .parenthesized inner :: inner.steps
  | .signed negates operand => .signed negates operand :: operand.steps
  | .combined arithmetic left right => .combined arithmetic left right :: (left.steps ++ right.steps)

/-- No integer type has room for what a tree denotes. -/
def Beyond (t : Tree) : Prop := ∃ z, t.exactly = some z ∧ ceiling < z.natAbs

/-- A tree denotes an integer and none of its steps is beyond every integer type. -/
def Computes (t : Tree) (z : ℤ) : Prop := t.exactly = some z ∧ ∀ step ∈ t.steps, ¬step.Beyond

end Tree

/-! ### Sign and magnitude -/

def Value.ofInt (z : ℤ) : Value F := .integer (decide (z < 0)) z.natAbs

def bounded (z : ℤ) : Except Problem (Value F) := if z.natAbs ≤ ceiling then .ok (Value.ofInt z) else .error .overflow

theorem integerConstant_eq {negative : Bool} {magnitude : ℕ} {z : ℤ} (hmagnitude : z.natAbs = magnitude)
    (hsign : magnitude ≠ 0 → (negative = true ↔ z < 0)) : (integerConstant negative magnitude : Value F) = Value.ofInt z := by
  subst hmagnitude
  rw [integerConstant,Value.ofInt]
  congr 1
  by_cases hz : z.natAbs = 0
  · have hnot : ¬z < 0 := by omega
    rw [hz,decide_eq_false hnot]
    exact Bool.and_false _
  · rw [Bool.eq_iff_iff,Bool.and_eq_true,decide_eq_true_iff,hsign hz,bne_iff_ne]
    exact and_iff_left hz

variable {a b : ℤ}

theorem addSigned_eq (ha : a.natAbs ≤ ceiling) (hb : b.natAbs ≤ ceiling) {negative : Bool} (hnegative : negative = decide (b < 0)) :
    (addSigned (decide (a < 0)) a.natAbs negative b.natAbs : Except Problem (Value F)) = bounded (a + b) := by
  subst hnegative
  rw [addSigned,bounded]
  by_cases hsame : decide (a < 0) = decide (b < 0) ∨ b.natAbs = 0
  · have hiff : b.natAbs ≠ 0 → (a < 0 ↔ b < 0) := fun hne => decide_eq_decide.mp (hsame.resolve_right hne)
    have hsum : (a + b).natAbs = a.natAbs + b.natAbs := by omega
    rw [if_pos hsame,hsum]
    by_cases hfits : a.natAbs + b.natAbs ≤ ceiling
    · rw [if_neg (by omega),if_pos hfits,integerConstant_eq hsum fun hne => by rw [decide_eq_true_iff]; omega]
    · rw [if_pos (by omega),if_neg hfits]
  · have hdiffer : ¬(a < 0 ↔ b < 0) := fun h => hsame (Or.inl (decide_eq_decide.mpr h))
    rw [if_neg hsame]
    by_cases hle : a.natAbs ≥ b.natAbs
    · have hsum : (a + b).natAbs = a.natAbs - b.natAbs := by omega
      rw [if_pos hle,if_pos (by omega),integerConstant_eq hsum fun hne => by rw [decide_eq_true_iff]; omega]
    · have hsum : (a + b).natAbs = b.natAbs - a.natAbs := by omega
      rw [if_neg hle,if_pos (by omega),integerConstant_eq hsum fun hne => by rw [decide_eq_true_iff]; omega]

theorem mulSigned_eq :
    (if a.natAbs ≠ 0 ∧ b.natAbs > ceiling / a.natAbs then .error .overflow
      else .ok (integerConstant (decide (a < 0) != decide (b < 0)) (a.natAbs * b.natAbs)) : Except Problem (Value F)) = bounded (a * b) := by
  have hproduct : (a * b).natAbs = a.natAbs * b.natAbs := Int.natAbs_mul a b
  have hroom : (a.natAbs ≠ 0 ∧ b.natAbs > ceiling / a.natAbs) ↔ ¬a.natAbs * b.natAbs ≤ ceiling := by
    constructor
    · rintro ⟨hne,hgt⟩
      rw [gt_iff_lt,Nat.div_lt_iff_lt_mul (Nat.pos_of_ne_zero hne),Nat.mul_comm] at hgt
      exact not_le.mpr hgt
    · intro hpast
      have hne : a.natAbs ≠ 0 := fun h => hpast (by rw [h,Nat.zero_mul]; exact Nat.zero_le _)
      refine ⟨hne,?_⟩
      rw [gt_iff_lt,Nat.div_lt_iff_lt_mul (Nat.pos_of_ne_zero hne),Nat.mul_comm]
      exact not_le.mp hpast
  rw [bounded,hproduct]
  by_cases hfits : a.natAbs * b.natAbs ≤ ceiling
  · rw [if_neg fun h => hroom.mp h hfits,if_pos hfits,integerConstant_eq hproduct fun hne => ?_]
    have ha : a ≠ 0 := fun h => hne (by rw [h]; exact Nat.zero_mul _)
    have hb : b ≠ 0 := fun h => hne (by rw [h]; exact Nat.mul_zero _)
    rw [bne_iff_ne,ne_eq,decide_eq_decide,mul_neg_iff]
    omega
  · rw [if_pos (hroom.mpr hfits),if_neg hfits]

/-- A quotient that is not zero is negative if just one of the operands is. -/
theorem tdiv_neg_iff (hne : a.natAbs / b.natAbs ≠ 0) : a.tdiv b < 0 ↔ ¬(a < 0 ↔ b < 0) := by
  have hbpos : b ≠ 0 := fun h => hne (by rw [h]; exact Nat.div_zero _)
  have hge : ¬a.natAbs < b.natAbs := fun hlt => hne (Nat.div_eq_of_lt hlt)
  have hapos : a ≠ 0 := by omega
  rw [← Int.sign_eq_neg_one_iff_neg,Int.sign_tdiv,if_neg hge,← Int.sign_mul,Int.sign_eq_neg_one_iff_neg,mul_neg_iff]
  omega

theorem tmod_neg_iff (hne : a.natAbs % b.natAbs ≠ 0) : a.tmod b < 0 ↔ a < 0 := by
  have habs := Int.natAbs_tmod a b
  constructor
  · intro hneg
    by_contra hpos
    exact absurd (Int.tmod_nonneg b (not_lt.mp hpos)) (not_le.mpr hneg)
  · intro hneg
    have hle : 0 ≤ (-a).tmod b := Int.tmod_nonneg b (by omega)
    rw [Int.neg_tmod] at hle
    omega

theorem combineIntegers_eq (arithmetic : Arithmetic) (ha : a.natAbs ≤ ceiling) (hb : b.natAbs ≤ ceiling) :
    (combineIntegers arithmetic.operator (decide (a < 0)) a.natAbs (decide (b < 0)) b.natAbs : Except Problem (Value F))
      = match arithmetic.exactly a b with
        | none => .error .dividesByZero
        | some z => bounded z := by
  cases arithmetic with
  | add => exact addSigned_eq ha hb rfl
  | sub =>
    have hflipped : (!decide (b < 0) && b.natAbs != 0) = decide (-b < 0) := by
      rw [Bool.eq_iff_iff,Bool.and_eq_true,Bool.not_eq_true',decide_eq_false_iff_not,bne_iff_ne,decide_eq_true_iff]
      omega
    have hadded := addSigned_eq (F := F) (b := -b) ha (by rw [Int.natAbs_neg]; exact hb) hflipped
    rw [Int.natAbs_neg] at hadded
    exact hadded
  | mul => exact mulSigned_eq
  | div =>
    have hquotient : (a.tdiv b).natAbs = a.natAbs / b.natAbs := Int.natAbs_tdiv a b
    by_cases hzero : b = 0
    · subst hzero
      rfl
    · have hlt : a.natAbs / b.natAbs ≤ ceiling := (Nat.div_le_self _ _).trans ha
      simp only [Arithmetic.operator,combineIntegers,Arithmetic.exactly,if_neg hzero,Int.natAbs_eq_zero,bounded,hquotient,if_pos hlt]
      rw [integerConstant_eq hquotient fun hne => by rw [bne_iff_ne,ne_eq,decide_eq_decide,tdiv_neg_iff hne]]
  | rem =>
    have hremainder : (a.tmod b).natAbs = a.natAbs % b.natAbs := Int.natAbs_tmod a b
    by_cases hzero : b = 0
    · subst hzero
      rfl
    · have hlt : a.natAbs % b.natAbs ≤ ceiling := (Nat.mod_le _ _).trans ha
      simp only [Arithmetic.operator,combineIntegers,Arithmetic.exactly,if_neg hzero,Int.natAbs_eq_zero,bounded,hremainder,if_pos hlt]
      rw [integerConstant_eq hremainder fun hne => by rw [decide_eq_true_iff,tmod_neg_iff hne]]

end Ens.Constants
