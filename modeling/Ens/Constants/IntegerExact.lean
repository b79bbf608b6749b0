import Ens.Constants.IntegerFolding

/-! # Integer constants are exact

The value and the reports of a tree are functions of the tree alone: it has its exact value unless a step of it is beyond every integer or
divides by zero, and every such step but those it takes no further is reported.
-/
set_option linter.all false
namespace Ens.Constants
variable {F : Type}

def reading (m : Machine F) : Machine F := { m with integerMagnitude := integerMagnitude }

def State.reporting (s : State F) (item : Item) (problems : List Problem) : State F :=
  { s with reports := s.reports ++ problems.map fun problem => (item.field.id,problem) }

def Problem.isOverflow : Problem → Bool
  | .beyondEveryInteger _ _ | .overflow => true
  | _ => false

def PrimitiveKind.integerRange : PrimitiveKind → Option (ℤ × ℤ)
  | .byte => some (0,2 ^ 8 - 1)
  | .short => some (-2 ^ 15,2 ^ 15 - 1)
  | .int => some (-2 ^ 31,2 ^ 31 - 1)
  | .long => some (-2 ^ 63,2 ^ 63 - 1)
  | .ushort => some (0,2 ^ 16 - 1)
  | .uint => some (0,2 ^ 32 - 1)
  | .ulong => some (0,2 ^ 64 - 1)
  | _ => none

def Arithmetic.within (arithmetic : Arithmetic) (a b : ℤ) : Option ℤ := (arithmetic.exactly a b).filter fun z => z.natAbs ≤ ceiling

def Arithmetic.problems (arithmetic : Arithmetic) (a b : ℤ) : List Problem :=
  match arithmetic.exactly a b with
  | none => [.dividesByZero]
  | some z => if z.natAbs ≤ ceiling then [] else [.overflow]

namespace Tree

def value : Tree → Option ℤ
  | .literal _ value _ => if value ≤ ceiling then some value else none
  | .parenthesized inner => inner.value
  | .signed negates operand => operand.value.map fun z => if negates then -z else z
  | .combined arithmetic left right => left.value.bind fun a => right.value.bind (arithmetic.within a)

def beyondText : Tree → Option Name
  | .literal text value _ => if value ≤ ceiling then none else some text
  | .parenthesized inner => inner.beyondText
  | _ => none

def problems : Tree → List Problem
  | .literal text value _ => if value ≤ ceiling then [] else [.beyondEveryInteger text false]
  | .parenthesized inner => inner.problems
  | .signed negates operand => match if negates then operand.beyondText else none with
    | some text => [.beyondEveryInteger text true]
    | none => operand.problems
  | .combined arithmetic left right => left.problems ++ right.problems ++ match left.value,right.value with
    | some a,some b => arithmetic.problems a b
    | _,_ => []

end Tree

/-! ### Evaluation of a tree -/

variable {P : Program} {m : Machine F} {visit : Visit F} {item : Item} {t left right : Tree} {s : State F} {z : ℤ} {arithmetic : Arithmetic}

theorem State.reporting_nil : s.reporting item [] = s := by
  rw [reporting,List.map_nil,List.append_nil]

theorem State.reporting_append (ps qs : List Problem) : (s.reporting item ps).reporting item qs = s.reporting item (ps ++ qs) := by
  rw [reporting,reporting,reporting,List.map_append,← List.append_assoc]

theorem Tree.value_bounded (h : t.value = some z) : z.natAbs ≤ ceiling := by
  induction t generalizing z with
  | literal text n spells =>
    rw [value] at h
    split_ifs at h with hle
    cases h
    exact hle
  | parenthesized inner ih => exact ih h
  | signed negates operand ih =>
    obtain ⟨w,hw,rfl⟩ := Option.map_eq_some_iff.mp h
    have hle := ih hw
    split_ifs
    · rw [Int.natAbs_neg]
      exact hle
    · exact hle
  | combined arithmetic left right _ _ =>
    obtain ⟨a,-,h⟩ := Option.bind_eq_some_iff.mp h
    obtain ⟨b,-,h⟩ := Option.bind_eq_some_iff.mp h
    exact of_decide_eq_true (Option.filter_eq_some_iff.mp h).2

theorem negatedBeyond_eq (negates : Bool) :
    negatedBeyond (reading m) (if negates then .minus else .plus) t.toExpr = if negates then t.beyondText else none := by
  cases negates with
  | false => rfl
  | true =>
    induction t with
    | literal text n spells =>
      have hread : (reading m).integerMagnitude text = if n ≤ ceiling then some n else none := integerMagnitude_spelled spells
      simp only [negatedBeyond,Tree.toExpr,unwrapParentheses,Tree.beyondText,hread,if_true]
      by_cases hle : n ≤ ceiling
      · rw [if_pos hle,if_pos hle]
        rfl
      · rw [if_neg hle,if_neg hle]
        rfl
    | parenthesized inner ih => exact ih
    | signed _ _ _ => rfl
    | combined _ _ _ _ _ => rfl

theorem Tree.value_of_beyondText {text : Name} (h : t.beyondText = some text) : t.value = none := by
  induction t with
  | literal other n spells =>
    rw [beyondText] at h
    split_ifs at h with hle
    exact if_neg hle
  | parenthesized inner ih => exact ih h
  | signed _ _ _ => cases h
  | combined _ _ _ _ _ => cases h

theorem settle_bounded (z : ℤ) : settle item (bounded z) s
    = (((some z).filter fun z => z.natAbs ≤ ceiling).map Value.ofInt,s.reporting item (if z.natAbs ≤ ceiling then [] else [.overflow])) := by
  rw [bounded]
  by_cases hle : z.natAbs ≤ ceiling
  · rw [if_pos hle,if_pos hle,State.reporting_nil,Option.filter_some,if_pos (decide_eq_true hle)]
    rfl
  · rw [if_neg hle,if_neg hle,Option.filter_some,if_neg (by rw [decide_eq_true_iff]; exact hle)]
    rfl

theorem settle_combined {a b : ℤ} (ha : a.natAbs ≤ ceiling) (hb : b.natAbs ≤ ceiling) :
    settle item (combine m arithmetic.operator (Value.ofInt a) (Value.ofInt b)) s
      = ((arithmetic.within a b).map Value.ofInt,s.reporting item (arithmetic.problems a b)) := by
  have hcombine : combine m arithmetic.operator (Value.ofInt a) (Value.ofInt b)
      = combineIntegers arithmetic.operator (decide (a < 0)) a.natAbs (decide (b < 0)) b.natAbs := rfl
  rw [hcombine,combineIntegers_eq arithmetic ha hb,Arithmetic.within,Arithmetic.problems]
  cases arithmetic.exactly a b with
  | none => rfl
  | some z => exact settle_bounded z

theorem applySign_eq (negates : Bool) (z : ℤ) :
    applySign m (if negates then .minus else .plus) (Value.ofInt z) = .ok (Value.ofInt (if negates then -z else z)) := by
  cases negates with
  | false => rfl
  | true =>
    refine congrArg Except.ok (integerConstant_eq (Int.natAbs_neg z) fun hne => ?_)
    rw [Bool.not_eq_true',decide_eq_false_iff_not,if_pos rfl]
    omega

theorem evaluate_eq : evaluate P (reading m) visit item t.toExpr s = some (t.value.map Value.ofInt,s.reporting item t.problems) := by
  induction t generalizing s with
  | literal text n spells =>
    have hread : (reading m).integerMagnitude text = if n ≤ ceiling then some n else none := integerMagnitude_spelled spells
    simp only [Tree.toExpr,evaluate,evaluateLiteral,hread,Tree.value,Tree.problems]
    by_cases hle : n ≤ ceiling
    · rw [if_pos hle,if_pos hle,if_pos hle,State.reporting_nil]
      refine congrArg (fun v => some (some v,s)) (integerConstant_eq (Int.natAbs_natCast n) fun _ => ?_)
      exact ⟨fun h => (Bool.false_ne_true h).elim,fun h => absurd h (by omega)⟩
    · rw [if_neg hle,if_neg hle,if_neg hle]
      rfl
  | parenthesized inner ih => exact ih
  | signed negates operand ih =>
    have hsign : Operator.isSign (if negates then .minus else .plus) = true := by cases negates <;> rfl
    rw [Tree.toExpr,evaluate,hsign,Bool.not_true,if_neg Bool.false_ne_true,negatedBeyond_eq,Tree.value,Tree.problems]
    cases hbeyond : if negates then operand.beyondText else none with
    | some text =>
      have hnone : operand.value = none := by
        split_ifs at hbeyond
        exact Tree.value_of_beyondText hbeyond
      rw [hnone]
      rfl
    | none =>
      rw [ih]
      cases operand.value with
      | none => rfl
      | some z =>
        dsimp only [Option.map_some]
        rw [applySign_eq]
        rfl
  | combined arithmetic left right hleft hright =>
    have hoperator : isConstantOperator arithmetic.operator = true := by cases arithmetic <;> rfl
    rw [Tree.toExpr,evaluate,hoperator,Bool.not_true,if_neg Bool.false_ne_true,hleft,Option.bind_some]
    dsimp only
    rw [hright,Option.map_some,Tree.value,Tree.problems,State.reporting_append]
    cases ha : left.value with
    | none =>
      rw [List.append_nil]
      rfl
    | some a =>
      cases hb : right.value with
      | none =>
        rw [List.append_nil]
        rfl
      | some b =>
        refine congrArg some ((settle_combined (Tree.value_bounded ha) (Tree.value_bounded hb)).trans ?_)
        rw [State.reporting_append]
        rfl

/-! ### Steps of a tree -/

namespace Tree

theorem self_mem (t : Tree) : t ∈ t.steps := by cases t <;> exact List.mem_cons_self

theorem Computes.bounded (h : t.Computes z) : z.natAbs ≤ ceiling := by
  by_contra hpast
  exact h.2 t t.self_mem ⟨z,h.1,not_le.mp hpast⟩

theorem beyond_parenthesized : (parenthesized t).Beyond ↔ t.Beyond := Iff.rfl

theorem beyond_signed {negates : Bool} : (signed negates t).Beyond ↔ t.Beyond := by
  have habs : ∀ z : ℤ, (if negates then -z else z).natAbs = z.natAbs := by
    intro z
    split_ifs
    · exact Int.natAbs_neg z
    · rfl
  constructor
  · rintro ⟨z,hz,hlt⟩
    obtain ⟨w,hw,rfl⟩ := Option.map_eq_some_iff.mp hz
    rw [habs] at hlt
    exact ⟨w,hw,hlt⟩
  · rintro ⟨w,hw,hlt⟩
    refine ⟨_,congrArg (Option.map _) hw,?_⟩
    rw [habs]
    exact hlt

theorem computes_literal {text : Name} {n : ℕ} {spells : Spells text n} : (literal text n spells).Computes z ↔ n ≤ ceiling ∧ (n : ℤ) = z := by
  constructor
  · intro h
    have hz : (n : ℤ) = z := Option.some.inj h.1
    have hbounded := h.bounded
    exact ⟨by omega,hz⟩
  · rintro ⟨hle,rfl⟩
    refine ⟨rfl,fun step hstep => ?_⟩
    cases List.mem_singleton.mp hstep
    rintro ⟨z,hz,hlt⟩
    cases hz
    omega

theorem computes_parenthesized : (parenthesized t).Computes z ↔ t.Computes z := by
  refine and_congr_right fun _ => ?_
  rw [steps,List.forall_mem_cons,beyond_parenthesized]
  exact and_iff_right_of_imp fun h => h t t.self_mem

theorem computes_signed {negates : Bool} : (signed negates t).Computes z ↔ ∃ w, t.Computes w ∧ (if negates then -w else w) = z := by
  have hsteps : (∀ step ∈ (signed negates t).steps, ¬step.Beyond) ↔ ∀ step ∈ t.steps, ¬step.Beyond := by
    rw [steps,List.forall_mem_cons,beyond_signed]
    exact and_iff_right_of_imp fun h => h t t.self_mem
  rw [Computes,hsteps]
  constructor
  · rintro ⟨hz,hbeyond⟩
    obtain ⟨w,hw,rfl⟩ := Option.map_eq_some_iff.mp hz
    exact ⟨w,⟨hw,hbeyond⟩,rfl⟩
  · rintro ⟨w,⟨hw,hbeyond⟩,rfl⟩
    exact ⟨congrArg (Option.map _) hw,hbeyond⟩

theorem exactly_combined : (combined arithmetic left right).exactly = some z
    ↔ ∃ a b, left.exactly = some a ∧ right.exactly = some b ∧ arithmetic.exactly a b = some z := by
  constructor
  · intro h
    obtain ⟨a,ha,h⟩ := Option.bind_eq_some_iff.mp h
    obtain ⟨b,hb,h⟩ := Option.bind_eq_some_iff.mp h
    exact ⟨a,b,ha,hb,h⟩
  · rintro ⟨a,b,ha,hb,h⟩
    rw [exactly,ha,Option.bind_some,hb]
    exact h

theorem computes_combined : (combined arithmetic left right).Computes z
    ↔ ∃ a b, left.Computes a ∧ right.Computes b ∧ arithmetic.within a b = some z := by
  constructor
  · intro h
    obtain ⟨a,b,ha,hb,hz⟩ := exactly_combined.mp h.1
    have hin : ∀ step ∈ left.steps ++ right.steps, ¬step.Beyond := fun step hstep => h.2 step (List.mem_cons_of_mem _ hstep)
    exact ⟨a,b,⟨ha,fun step hstep => hin step (List.mem_append_left _ hstep)⟩,
      ⟨hb,fun step hstep => hin step (List.mem_append_right _ hstep)⟩,Option.filter_eq_some_iff.mpr ⟨hz,decide_eq_true h.bounded⟩⟩
  · rintro ⟨a,b,ha,hb,hwithin⟩
    obtain ⟨hz,hle⟩ := Option.filter_eq_some_iff.mp hwithin
    have hexactly := exactly_combined.mpr ⟨a,b,ha.1,hb.1,hz⟩
    refine ⟨hexactly,fun step hstep => ?_⟩
    rcases List.mem_cons.mp hstep with rfl | hstep
    · rintro ⟨w,hw,hlt⟩
      cases hw.symm.trans hexactly
      exact absurd (of_decide_eq_true hle) (not_le.mpr hlt)
    · exact (List.mem_append.mp hstep).elim (ha.2 step) (hb.2 step)

theorem value_iff : t.value = some z ↔ t.Computes z := by
  induction t generalizing z with
  | literal text n spells =>
    rw [computes_literal,value]
    split_ifs with hle
    · rw [Option.some.injEq,and_iff_right hle]
    · exact ⟨fun h => absurd h (by simp),fun h => absurd h.1 hle⟩
  | parenthesized inner ih => exact ih.trans computes_parenthesized.symm
  | signed negates operand ih =>
    rw [computes_signed,value,Option.map_eq_some_iff]
    exact exists_congr fun w => and_congr_left fun _ => ih
  | combined arithmetic left right hleft hright =>
    rw [computes_combined,value,Option.bind_eq_some_iff]
    refine exists_congr fun a => ?_
    rw [Option.bind_eq_some_iff,hleft,← exists_and_left]
    exact exists_congr fun b => by rw [hright]

/-! ### Reports of a tree -/

theorem exists_cons {Q : Tree → Prop} {ts : List Tree} : (∃ step ∈ t :: ts, Q step) ↔ Q t ∨ ∃ step ∈ ts, Q step := by
  simp only [List.mem_cons,exists_eq_or_imp]

theorem exists_singleton {Q : Tree → Prop} : (∃ step ∈ [t], Q step) ↔ Q t := by
  simp only [List.mem_singleton,exists_eq_left]

/-- The tree divides one computed value by another that is zero. -/
def DividesByZero (t : Tree) : Prop :=
  ∃ arithmetic left right, .combined arithmetic left right = t ∧ arithmetic.divides ∧ (∃ a, left.Computes a) ∧ right.Computes 0

theorem beyond_of_text {text : Name} (h : t.beyondText = some text) : t.Beyond ∧ ∀ step ∈ t.steps, ¬step.DividesByZero := by
  induction t with
  | literal other n spells =>
    rw [beyondText] at h
    split_ifs at h with hle
    refine ⟨⟨n,rfl,by omega⟩,fun step hstep => ?_⟩
    cases List.mem_singleton.mp hstep
    rintro ⟨_,_,_,hsame,-⟩
    cases hsame
  | parenthesized inner ih =>
    obtain ⟨hbeyond,hdivides⟩ := ih h
    refine ⟨hbeyond,fun step hstep => ?_⟩
    rcases List.mem_cons.mp hstep with rfl | hstep
    · rintro ⟨_,_,_,hsame,-⟩
      cases hsame
    · exact hdivides step hstep
  | signed _ _ _ => cases h
  | combined _ _ _ _ _ => cases h

theorem overflow_step {a b : ℤ} : (∃ problem ∈ arithmetic.problems a b, problem.isOverflow) ↔ ∃ z, arithmetic.exactly a b = some z ∧ ceiling < z.natAbs := by
  rw [Arithmetic.problems]
  cases arithmetic.exactly a b with
  | none => simp [Problem.isOverflow]
  | some z =>
    dsimp only
    split_ifs with hle
    · simp [hle]
    · simpa [Problem.isOverflow] using hle

theorem dividesByZero_step {a b : ℤ} : .dividesByZero ∈ arithmetic.problems a b ↔ arithmetic.divides ∧ b = 0 := by
  rw [Arithmetic.problems]
  cases arithmetic <;> simp only [Arithmetic.exactly,Arithmetic.divides] <;> split_ifs <;> simp [*]

theorem mem_problems_combined {problem : Problem} : problem ∈ (combined arithmetic left right).problems
    ↔ (problem ∈ left.problems ∨ problem ∈ right.problems) ∨ ∃ a b, left.Computes a ∧ right.Computes b ∧ problem ∈ arithmetic.problems a b := by
  rw [problems,List.mem_append,List.mem_append]
  refine or_congr_right ?_
  constructor
  · intro h
    split at h
    next a b ha hb => exact ⟨a,b,value_iff.mp ha,value_iff.mp hb,h⟩
    next => cases h
  · rintro ⟨a,b,ha,hb,h⟩
    rw [value_iff.mpr ha,value_iff.mpr hb]
    exact h

theorem problems_signed (negates : Bool) (t : Tree) : (signed negates t).problems = t.problems
    ∨ ∃ text, t.beyondText = some text ∧ (signed negates t).problems = [.beyondEveryInteger text true] := by
  rw [problems]
  split
  next text h =>
    split_ifs at h
    exact Or.inr ⟨text,h,rfl⟩
  next => exact Or.inl rfl

theorem overflow_iff : (∃ problem ∈ t.problems, problem.isOverflow) ↔ ∃ step ∈ t.steps, step.Beyond := by
  induction t with
  | literal text n spells =>
    have hbeyond : (literal text n spells).Beyond ↔ ceiling < n := by simp [Beyond,exactly]
    rw [problems,steps,exists_singleton,hbeyond]
    split_ifs with hle
    · simp [hle]
    · simpa [Problem.isOverflow] using hle
  | parenthesized inner ih =>
    rw [problems,ih,steps,exists_cons,beyond_parenthesized]
    exact (or_iff_right_of_imp fun h => ⟨inner,inner.self_mem,h⟩).symm
  | signed negates operand ih =>
    have hsteps : (∃ step ∈ (signed negates operand).steps, step.Beyond) ↔ ∃ step ∈ operand.steps, step.Beyond := by
      rw [steps,exists_cons,beyond_signed]
      exact or_iff_right_of_imp fun h => ⟨operand,operand.self_mem,h⟩
    rw [hsteps]
    rcases problems_signed negates operand with h | ⟨text,htext,h⟩
    · rw [h,ih]
    · rw [h]
      exact iff_of_true ⟨_,List.mem_singleton_self _,rfl⟩ ⟨operand,operand.self_mem,(beyond_of_text htext).1⟩
  | combined arithmetic left right hleft hright =>
    constructor
    · rintro ⟨problem,hproblem,ho⟩
      rcases mem_problems_combined.mp hproblem with (h | h) | ⟨a,b,ha,hb,h⟩
      · obtain ⟨step,hstep,hbeyond⟩ := hleft.mp ⟨problem,h,ho⟩
        exact ⟨step,List.mem_cons_of_mem _ (List.mem_append_left _ hstep),hbeyond⟩
      · obtain ⟨step,hstep,hbeyond⟩ := hright.mp ⟨problem,h,ho⟩
        exact ⟨step,List.mem_cons_of_mem _ (List.mem_append_right _ hstep),hbeyond⟩
      · obtain ⟨z,hz,hlt⟩ := overflow_step.mp ⟨problem,h,ho⟩
        exact ⟨_,self_mem _,z,exactly_combined.mpr ⟨a,b,ha.1,hb.1,hz⟩,hlt⟩
    · rintro ⟨step,hstep,hbeyond⟩
      by_cases hinLeft : ∃ step ∈ left.steps, step.Beyond
      · obtain ⟨problem,h,ho⟩ := hleft.mpr hinLeft
        exact ⟨problem,mem_problems_combined.mpr (Or.inl (Or.inl h)),ho⟩
      by_cases hinRight : ∃ step ∈ right.steps, step.Beyond
      · obtain ⟨problem,h,ho⟩ := hright.mpr hinRight
        exact ⟨problem,mem_problems_combined.mpr (Or.inl (Or.inr h)),ho⟩
      -- Both operands are computed, so the step beyond every integer is the tree itself.
      rcases List.mem_cons.mp hstep with rfl | hstep
      · obtain ⟨z,hz,hlt⟩ := hbeyond
        obtain ⟨a,b,ha,hb,hstep⟩ := exactly_combined.mp hz
        obtain ⟨problem,h,ho⟩ := overflow_step.mpr ⟨z,hstep,hlt⟩
        exact ⟨problem,mem_problems_combined.mpr (Or.inr ⟨a,b,⟨ha,fun step hs hbeyond => hinLeft ⟨step,hs,hbeyond⟩⟩,
          ⟨hb,fun step hs hbeyond => hinRight ⟨step,hs,hbeyond⟩⟩,h⟩),ho⟩
      · rcases List.mem_append.mp hstep with hstep | hstep
        · exact (hinLeft ⟨step,hstep,hbeyond⟩).elim
        · exact (hinRight ⟨step,hstep,hbeyond⟩).elim

theorem dividesByZero_combined : (combined arithmetic left right).DividesByZero ↔ arithmetic.divides ∧ (∃ a, left.Computes a) ∧ right.Computes 0 := by
  constructor
  · rintro ⟨_,_,_,hsame,h⟩
    cases hsame
    exact h
  · exact fun h => ⟨_,_,_,rfl,h⟩

theorem dividesByZero_iff : .dividesByZero ∈ t.problems ↔ ∃ step ∈ t.steps, step.DividesByZero := by
  induction t with
  | literal text n spells =>
    have hnot : ¬(literal text n spells).DividesByZero := by
      rintro ⟨_,_,_,hsame,-⟩
      cases hsame
    rw [problems,steps,exists_singleton]
    refine iff_of_false ?_ hnot
    split_ifs <;> simp
  | parenthesized inner ih =>
    have hnot : ¬(parenthesized inner).DividesByZero := by
      rintro ⟨_,_,_,hsame,-⟩
      cases hsame
    rw [problems,ih,steps,exists_cons,or_iff_right hnot]
  | signed negates operand ih =>
    have hnot : ¬(signed negates operand).DividesByZero := by
      rintro ⟨_,_,_,hsame,-⟩
      cases hsame
    rw [steps,exists_cons,or_iff_right hnot]
    rcases problems_signed negates operand with h | ⟨text,htext,h⟩
    · rw [h,ih]
    · rw [h]
      refine iff_of_false (by simp) ?_
      rintro ⟨step,hstep,hdivides⟩
      exact (beyond_of_text htext).2 step hstep hdivides
  | combined arithmetic left right hleft hright =>
    have hoperands : (∃ step ∈ left.steps ++ right.steps, step.DividesByZero)
        ↔ (∃ step ∈ left.steps, step.DividesByZero) ∨ ∃ step ∈ right.steps, step.DividesByZero := by
      simp only [List.mem_append,or_and_right,exists_or]
    rw [mem_problems_combined,hleft,hright,steps,exists_cons,hoperands,dividesByZero_combined,or_comm]
    refine or_congr_left ?_
    constructor
    · rintro ⟨a,b,ha,hb,h⟩
      obtain ⟨hdivides,rfl⟩ := dividesByZero_step.mp h
      exact ⟨hdivides,⟨a,ha⟩,hb⟩
    · rintro ⟨hdivides,⟨a,ha⟩,hb⟩
      exact ⟨a,0,ha,hb,dividesByZero_step.mpr ⟨hdivides,rfl⟩⟩

theorem value_none_iff : t.value = none ↔ t.problems ≠ [] := by
  induction t with
  | literal text n spells =>
    rw [value,problems]
    split_ifs <;> simp
  | parenthesized inner ih => exact ih
  | signed negates operand ih =>
    rw [value,Option.map_eq_none_iff]
    rcases problems_signed negates operand with h | ⟨text,htext,h⟩
    · rw [h,ih]
    · rw [h]
      exact iff_of_true (value_of_beyondText htext) (List.cons_ne_nil _ _)
  | combined arithmetic left right hleft hright =>
    rw [value,problems]
    cases ha : left.value with
    | none =>
      have hreported := hleft.mp ha
      simp [hreported]
    | some a =>
      cases hb : right.value with
      | none =>
        have hreported := hright.mp hb
        simp [hreported]
      | some b =>
        have hl : left.problems = [] := by
          by_contra hne
          rw [hleft.mpr hne] at ha
          cases ha
        have hr : right.problems = [] := by
          by_contra hne
          rw [hright.mpr hne] at hb
          cases hb
        dsimp only
        rw [Option.bind_some,Option.bind_some,hl,hr,List.nil_append,List.nil_append,Arithmetic.within,Arithmetic.problems]
        cases arithmetic.exactly a b with
        | none => simp
        | some z =>
          by_cases hle : z.natAbs ≤ ceiling
          · simp [hle]
          · simp [hle,not_le.mp hle]

end Tree

/-! ### Ranges -/

variable {kind : PrimitiveKind} {low high : ℤ} {v : Value F}

theorem fitsSigned_iff {limit : ℕ} : fitsSigned (decide (z < 0)) z.natAbs limit = true ↔ -(limit + 1) ≤ z ∧ z ≤ limit := by
  rw [fitsSigned]
  by_cases hneg : z < 0
  · rw [if_pos (decide_eq_true hneg),decide_eq_true_iff]
    omega
  · rw [if_neg (by rw [decide_eq_true_iff]; exact hneg),decide_eq_true_iff]
    omega

theorem magnitudeFits_iff (hkind : kind.integerRange = some (low,high)) (hz : z.natAbs ≤ ceiling) :
    magnitudeFits (decide (z < 0)) z.natAbs kind = true ↔ low ≤ z ∧ z ≤ high := by
  have hceiling : ceiling = 18446744073709551615 := rfl
  cases kind <;> cases hkind <;> simp only [magnitudeFits,fitsSigned_iff,Bool.and_eq_true,Bool.not_eq_true',decide_eq_false_iff_not,
    decide_eq_true_iff] <;> omega

theorem fitDeclaredType_iff (hkind : kind.integerRange = some (low,high)) (hz : z.natAbs ≤ ceiling) :
    fitDeclaredType m (.primitive kind) (Value.ofInt z) = .ok v ↔ (low ≤ z ∧ z ≤ high) ∧ v = Value.ofInt z := by
  have hinteger : fitDeclaredType m (.primitive kind) (Value.ofInt z)
      = (fitInteger kind (decide (z < 0)) z.natAbs).mapError some := by
    cases kind <;> cases hkind <;> rfl
  rw [hinteger,fitInteger]
  by_cases hfits : magnitudeFits (decide (z < 0)) z.natAbs kind = true
  · have hconstant : (integerConstant (decide (z < 0)) z.natAbs : Value F) = Value.ofInt z :=
      integerConstant_eq rfl fun _ => decide_eq_true_iff
    rw [if_pos hfits,and_iff_right ((magnitudeFits_iff hkind hz).mp hfits),hconstant]
    exact ⟨fun h => (Except.ok.inj h).symm,fun h => congrArg Except.ok h.symm⟩
  · rw [if_neg hfits]
    exact iff_of_false (fun h => by cases h) fun h => hfits ((magnitudeFits_iff hkind hz).mpr h.1)

/-- The evaluation of a tree of integer literals is exact: it leaves the integer the tree denotes if every step has room, it reports a
number outside every integer type exactly for a step that is one, it refuses to divide by zero, a zero it leaves has no sign, and an integer
type takes just the values in its range. -/
theorem folding_exact (P : Program) (m : Machine F) (visit : Visit F) (item : Item) (t : Tree) (s : State F) :
    ∃ (computed : Option (Value F)) (reports : List Problem),
      evaluate P (reading m) visit item t.toExpr s = some (computed,s.reporting item reports) ∧
      (∀ v, computed = some v ↔ ∃ z, t.Computes z ∧ v = Value.ofInt z) ∧
      (computed = none ↔ reports ≠ []) ∧
      ((∃ problem ∈ reports, problem.isOverflow) ↔ ∃ step ∈ t.steps, step.Beyond) ∧
      (.dividesByZero ∈ reports ↔ ∃ step ∈ t.steps, step.DividesByZero) ∧
      (t.exactly = none → computed = none) ∧
      (∀ negative, computed = some (.integer negative 0) → negative = false) ∧
      ∀ kind low high, kind.integerRange = some (low,high) → ∀ z, t.Computes z → ∀ v,
        fitDeclaredType m (.primitive kind) (Value.ofInt z) = .ok v ↔ (low ≤ z ∧ z ≤ high) ∧ v = Value.ofInt z := by
  have hvalue : ∀ v : Value F, t.value.map Value.ofInt = some v ↔ ∃ z, t.Computes z ∧ v = Value.ofInt z := by
    intro v
    rw [Option.map_eq_some_iff]
    exact exists_congr fun z => and_congr Tree.value_iff eq_comm
  refine ⟨_,_,evaluate_eq,hvalue,Option.map_eq_none_iff.trans Tree.value_none_iff,Tree.overflow_iff,Tree.dividesByZero_iff,?_,?_,?_⟩
  · intro hnone
    rw [Option.map_eq_none_iff,Option.eq_none_iff_forall_ne_some]
    intro z hz
    rw [(Tree.value_iff.mp hz).1] at hnone
    cases hnone
  · intro negative hzero
    obtain ⟨z,-,hz⟩ := (hvalue _).mp hzero
    injection hz with hsign hmagnitude
    rw [hsign,decide_eq_false_iff_not]
    omega
  · exact fun kind low high hkind z hz v => fitDeclaredType_iff hkind hz.bounded

end Ens.Constants
