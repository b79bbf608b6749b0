import Ens.Eir.Model
import Ens.Logic.Saturation
import Mathlib.Algebra.BigOperators.Group.Finset.Basic
import Mathlib.Algebra.Order.BigOperators.Group.Finset
import Mathlib.Data.Set.Basic

/-! # Temps that are surely defined

The check lowers the sets of temps defined at the start of each block until they agree with every edge, and accepts a use that the set covers.
On a path each set holds at most the temps the path has defined.
-/
set_option linter.all false
namespace Ens.Eir
open Saturation

abbrev Temps := ℕ → Bool

structure Entries where
  reached : ℕ → Bool
  definedAtEntry : ℕ → Temps

variable (f : EirFunction)

def validTemp (temp : ℤ) : Prop := 0 ≤ temp ∧ temp < f.tempCount

instance (temp : ℤ) : Decidable (validTemp f temp) := inferInstanceAs (Decidable (_ ∧ _))

def define (defined : Temps) (result : ℤ) : Temps :=
  if validTemp f result then Function.update defined result.toNat true else defined

def definedAfter (instructions : List Instruction) (defined : Temps) : Temps :=
  instructions.foldl (fun defined instruction => define f defined (resultOf instruction)) defined

def reachingAt (defined : Temps) (terminator : Option Terminator) (successor : ℤ) : Temps :=
  match terminator with
  | none => defined
  | some terminator => (terminatorDefsFor terminator successor).foldl (define f) defined

/-- A block found for the first time takes the set of the edge, and one found before is left with what both have. -/
def visitSuccessor (defined : Temps) (terminator : Option Terminator) (s : Entries × Bool) (successor : ℤ) : Entries × Bool :=
  if successor < 0 ∨ successor ≥ f.blocks.length then s
  else
    let reaching := reachingAt f defined terminator successor
    let n := successor.toNat
    let held := s.1.definedAtEntry n
    if s.1.reached n = false then
      (⟨Function.update s.1.reached n true,
        Function.update s.1.definedAtEntry n fun i => if i < f.tempCount then reaching i else held i⟩,true)
    else
      (⟨s.1.reached,Function.update s.1.definedAtEntry n fun i => if i < f.tempCount then held i && reaching i else held i⟩,
        s.2 || (List.range f.tempCount).any fun i => held i && !reaching i)

def visitBlock (s : Entries × Bool) (b : ℕ) : Entries × Bool :=
  if s.1.reached b = false then s
  else
    match f.blocks[b]? with
    | none => s
    | some block =>
      let defined := definedAfter f block.instructions (s.1.definedAtEntry b)
      (successorsOf block).foldl (visitSuccessor f defined block.terminator) s

def round (s : Entries) : Entries × Bool := (List.range f.blocks.length).foldl (visitBlock f) (s,false)

/-- The entry block is reached with the receiver and the parameters. -/
def start : Entries where
  reached b := decide (b = 0)
  definedAtEntry b i := decide (b = 0 ∧ i < f.entryTempCount)

def notDefined (label : String) (used : ℤ) : String :=
  f.symbol ++ ": " ++ label ++ ": %" ++ toString used ++ " is used before it is definitely defined"

def checkUses (label : String) (defined : Temps) (uses : List ℤ) : List String :=
  (uses.filter fun used => decide (validTemp f used) && !defined used.toNat).map (notDefined f label)

def checkInstructions (label : String) : List Instruction → Temps → List String
  | [], _ => []
  | instruction :: rest, defined =>
    checkUses f label defined (usesOf instruction) ++ checkInstructions label rest (define f defined (resultOf instruction))

def checkBlock (s : Entries) (b : ℕ) : List String :=
  if s.reached b = false then []
  else
    match f.blocks[b]? with
    | none => []
    | some block =>
      checkInstructions f block.label block.instructions (s.definedAtEntry b) ++
        match block.terminator with
        | none => []
        | some terminator =>
          checkUses f block.label (definedAfter f block.instructions (s.definedAtEntry b)) (terminatorUsesOf terminator)

/-- A round that changes anything finds a block or takes a temp from a set, so there are no more rounds than these. -/
def rounds : ℕ := f.blocks.length * (f.tempCount + 1) + 1

def checkDefiniteDefinition : Option (List String) :=
  if f.blocks = [] then some []
  else (untilSame (round f) (rounds f) (start f)).map fun s => (List.range f.blocks.length).flatMap (checkBlock f s)

/-! ### Paths -/

/-- The edges out of a block with the temps defined on each: the result of a call where it returned, its error where it was thrown. -/
def edgesOf : Terminator → List (ℤ × List ℤ)
  | .ret _ => []
  | .jump target => [(target,[])]
  | .branch _ thenTarget elseTarget => [(thenTarget,[]),(elseTarget,[])]
  | .switch _ _ caseTargets defaultTarget => (caseTargets ++ [defaultTarget]).map fun target => (target,[])
  | .unreachable => []
  | .tryCall result _ _ errorResult normalTarget unwindTarget => [(normalTarget,[result]),(unwindTarget,[errorResult])]
  | .tryClosureCall result _ _ errorResult normalTarget unwindTarget => [(normalTarget,[result]),(unwindTarget,[errorResult])]
  | .propagate _ => []

/-- A path from the entry that stands in a block before some of its instructions, with the temps it has defined. -/
inductive Path : ℕ → List Instruction → Set ℤ → Prop
  | entry {block : Block} : f.blocks[0]? = some block → Path 0 block.instructions {temp | 0 ≤ temp ∧ temp < f.entryTempCount}
  | instruction {b : ℕ} {instruction : Instruction} {rest : List Instruction} {D : Set ℤ} :
      Path b (instruction :: rest) D → Path b rest (insert (resultOf instruction) D)
  | edge {b : ℕ} {block next : Block} {terminator : Terminator} {target : ℤ} {defs : List ℤ} {D : Set ℤ} :
      Path b [] D → f.blocks[b]? = some block → block.terminator = some terminator → (target,defs) ∈ edgesOf terminator →
      0 ≤ target → f.blocks[target.toNat]? = some next → Path target.toNat next.instructions (D ∪ {temp | temp ∈ defs})

variable {f} {s s' : Entries × Bool} {e : Entries} {defined : Temps} {terminator : Option Terminator} {successor result : ℤ} {b i : ℕ}
  {block : Block} {instructions rest : List Instruction} {D : Set ℤ}

/-! ### What a temp in a set was defined by -/

theorem define_true (h : define f defined result i = true) : defined i = true ∨ (i : ℤ) = result := by
  unfold define at h
  split at h
  · rename_i hvalid
    rcases eq_or_ne i result.toNat with rfl | hne
    · exact .inr (Int.toNat_of_nonneg hvalid.1)
    · rw [Function.update_of_ne hne] at h
      exact .inl h
  · exact .inl h

theorem foldl_define_true {defs : List ℤ} (h : defs.foldl (define f) defined i = true) : defined i = true ∨ (i : ℤ) ∈ defs := by
  induction defs generalizing defined with
  | nil => exact .inl h
  | cons result defs ih =>
    rcases ih h with h | h
    · refine (define_true h).imp_right fun h => ?_
      rw [h]
      exact List.mem_cons_self
    · exact .inr (List.mem_cons_of_mem _ h)

theorem definedAfter_concat (instructions : List Instruction) (instruction : Instruction) (defined : Temps) :
    definedAfter f (instructions ++ [instruction]) defined = define f (definedAfter f instructions defined) (resultOf instruction) := by
  rw [definedAfter,List.foldl_append]
  rfl

/-- An edge is to a successor, and defines at least what the check takes to be defined on it. -/
theorem edge_spec {terminator : Terminator} {target : ℤ} {defs : List ℤ} (h : (target,defs) ∈ edgesOf terminator) :
    target ∈ successorsOfTerminator terminator ∧ ∀ temp ∈ terminatorDefsFor terminator target, temp ∈ defs := by
  have hcall : ∀ {result errorResult normalTarget unwindTarget : ℤ},
      (target,defs) ∈ [(normalTarget,[result]),(unwindTarget,[errorResult])] → target ∈ [normalTarget,unwindTarget] ∧
        ∀ temp ∈ callDefsFor result errorResult normalTarget unwindTarget target, temp ∈ defs := by
    intro result errorResult normalTarget unwindTarget h
    simp only [List.mem_cons,Prod.mk.injEq,List.not_mem_nil,or_false] at h
    rcases h with ⟨rfl,rfl⟩ | ⟨rfl,rfl⟩
    · refine ⟨List.mem_cons_self,fun temp ht => ?_⟩
      simp only [callDefsFor,true_and,ne_eq,not_true,and_false,if_false,List.append_nil] at ht
      split at ht
      · exact ht
      · cases ht
    · refine ⟨List.mem_cons_of_mem _ List.mem_cons_self,fun temp ht => ?_⟩
      simp only [callDefsFor,ne_eq,not_true,and_false,if_false,List.nil_append] at ht
      split at ht
      · exact ht
      · cases ht
  have hnone : ∀ targets : List ℤ, (target,defs) ∈ targets.map (fun target => (target,([] : List ℤ))) →
      target ∈ targets ∧ ∀ temp ∈ ([] : List ℤ), temp ∈ defs := by
    intro targets h
    obtain ⟨target',hmem,heq⟩ := List.mem_map.mp h
    cases heq
    exact ⟨hmem,fun temp ht => ht⟩
  cases terminator with
  | ret value => cases h
  | jump next => exact hnone [next] h
  | branch condition thenTarget elseTarget => exact hnone [thenTarget,elseTarget] h
  | switch value caseValues caseTargets defaultTarget => exact hnone _ h
  | unreachable => cases h
  | tryCall result receiver arguments errorResult normalTarget unwindTarget => exact hcall h
  | tryClosureCall result closure arguments errorResult normalTarget unwindTarget => exact hcall h
  | propagate error => cases h

/-! ### Rounds -/

/-- The set of a successor holds no more than what the edge to it brings. -/
def EdgeAgrees (f : EirFunction) (e : Entries) (defined : Temps) (terminator : Option Terminator) (successor : ℤ) : Prop :=
  0 ≤ successor → successor < f.blocks.length → e.reached successor.toNat = true ∧
    ∀ i < f.tempCount, e.definedAtEntry successor.toNat i = true → reachingAt f defined terminator successor i = true

/-- Every set agrees with the edges out of the blocks reached. -/
def Agrees (f : EirFunction) (e : Entries) (b : ℕ) : Prop := e.reached b = true → ∀ block, f.blocks[b]? = some block →
  ∀ successor ∈ successorsOf block,
    EdgeAgrees f e (definedAfter f block.instructions (e.definedAtEntry b)) block.terminator successor

/-- Steps that say they change nothing leave the state and hold what each asks for. -/
theorem foldl_quiet {α β : Type*} {g : α × Bool → β → α × Bool} {P : α → β → Prop} {xs : List β} {s : α × Bool}
    (hg : ∀ s x, (g s x).2 = false → g s x = s ∧ P s.1 x) (h : (xs.foldl g s).2 = false) : xs.foldl g s = s ∧ ∀ x ∈ xs, P s.1 x := by
  induction xs generalizing s with
  | nil => exact ⟨rfl,fun x hx => absurd hx List.not_mem_nil⟩
  | cons x xs ih =>
    obtain ⟨hrest,hall⟩ := ih h
    have hquiet : (g s x).2 = false := by
      rw [← hrest]
      exact h
    obtain ⟨hsame,hx⟩ := hg s x hquiet
    rw [hsame] at hall
    refine ⟨hrest.trans hsame,fun y hy => ?_⟩
    rcases List.mem_cons.mp hy with rfl | hy
    · exact hx
    · exact hall y hy

theorem visitSuccessor_quiet (h : (visitSuccessor f defined terminator s successor).2 = false) :
    visitSuccessor f defined terminator s successor = s ∧ EdgeAgrees f s.1 defined terminator successor := by
  unfold visitSuccessor at h ⊢
  split
  · rename_i hout
    exact ⟨rfl,fun h0 hn => absurd hout (not_or_intro (Int.not_lt.mpr h0) (Int.not_le.mpr hn))⟩
  · rename_i hin
    rw [if_neg hin] at h
    dsimp only at h ⊢
    split
    · rename_i hfirst
      rw [if_pos hfirst] at h
      cases h
    · rename_i hfound
      rw [if_neg hfound] at h
      dsimp only at h
      rw [Bool.or_eq_false_iff,List.any_eq_false] at h
      obtain ⟨hflag,hnone⟩ := h
      have hkept : ∀ i < f.tempCount, s.1.definedAtEntry successor.toNat i = true → reachingAt f defined terminator successor i = true := by
        intro i hi hheld
        have hi := hnone i (List.mem_range.mpr hi)
        rw [hheld,Bool.true_and,Bool.not_eq_true',Bool.not_eq_false] at hi
        exact hi
      refine ⟨?_,fun _ _ => ⟨eq_true_of_ne_false hfound,hkept⟩⟩
      have hsame : (fun i => if i < f.tempCount then s.1.definedAtEntry successor.toNat i && reachingAt f defined terminator successor i
          else s.1.definedAtEntry successor.toNat i) = s.1.definedAtEntry successor.toNat := by
        funext i
        split
        · rename_i hi
          cases hheld : s.1.definedAtEntry successor.toNat i with
          | false => rfl
          | true => rw [hkept i hi hheld]; rfl
        · rfl
      have hany : ((List.range f.tempCount).any fun i => s.1.definedAtEntry successor.toNat i && !reachingAt f defined terminator successor i) =
          false := List.any_eq_false.mpr hnone
      rw [hsame,Function.update_eq_self,hany,Bool.or_false]

theorem visitBlock_quiet (h : (visitBlock f s b).2 = false) : visitBlock f s b = s ∧ Agrees f s.1 b := by
  unfold visitBlock at h ⊢
  split
  · rename_i hr
    exact ⟨rfl,fun hreached => by rw [hr] at hreached; cases hreached⟩
  · rename_i hr
    rw [if_neg hr] at h
    cases hb : f.blocks[b]? with
    | none => exact ⟨rfl,fun _ block hblock => by rw [hb] at hblock; cases hblock⟩
    | some block =>
      rw [hb] at h
      dsimp only at h ⊢
      obtain ⟨hsame,hall⟩ := foldl_quiet (P := fun e successor => EdgeAgrees f e _ block.terminator successor) (fun _ _ => visitSuccessor_quiet) h
      refine ⟨hsame,fun _ block' hblock => ?_⟩
      rw [hb] at hblock
      cases hblock
      exact hall

theorem round_quiet (h : (round f e).2 = false) : (round f e).1 = e ∧ ∀ b < f.blocks.length, Agrees f e b := by
  obtain ⟨hsame,hall⟩ := foldl_quiet (fun s x => visitBlock_quiet) h
  exact ⟨congrArg Prod.fst hsame,fun b hb => hall b (List.mem_range.mpr hb)⟩

/-! ### Rounds end -/

def heldCount (f : EirFunction) (held : Temps) : ℕ := ((Finset.range f.tempCount).filter fun i => held i = true).card

theorem heldCount_le (f : EirFunction) (held : Temps) : heldCount f held ≤ f.tempCount :=
  Nat.le_trans (Finset.card_filter_le _ _) (Finset.card_range _).le

def weight (f : EirFunction) (e : Entries) (b : ℕ) : ℕ :=
  if e.reached b = true then heldCount f (e.definedAtEntry b) else f.tempCount + 1

theorem weight_congr {e' : Entries} (hr : e'.reached b = e.reached b) (hd : e'.definedAtEntry b = e.definedAtEntry b) :
    weight f e' b = weight f e b := by
  unfold weight
  simp only [hr,hd]

def measure (f : EirFunction) (e : Entries) : ℕ := ∑ b ∈ Finset.range f.blocks.length, weight f e b

/-- A step lowers the measure where it says so, and never raises it. -/
def Lowers (f : EirFunction) (s s' : Entries × Bool) : Prop :=
  measure f s'.1 ≤ measure f s.1 ∧ (s'.2 = true → s.2 = true ∨ measure f s'.1 < measure f s.1)

theorem Lowers.refl (s : Entries × Bool) : Lowers f s s := ⟨Nat.le_refl _,.inl⟩

theorem Lowers.trans {s'' : Entries × Bool} (h : Lowers f s s') (h' : Lowers f s' s'') : Lowers f s s'' := by
  refine ⟨Nat.le_trans h'.1 h.1,fun hc => ?_⟩
  rcases h'.2 hc with hc | hlt
  · exact (h.2 hc).imp_right fun hlt => Nat.lt_of_le_of_lt h'.1 hlt
  · exact .inr (Nat.lt_of_lt_of_le hlt h.1)

theorem foldl_lowers {β : Type*} {g : Entries × Bool → β → Entries × Bool} (hg : ∀ s x, Lowers f s (g s x)) (xs : List β)
    (s : Entries × Bool) : Lowers f s (xs.foldl g s) := by
  induction xs generalizing s with
  | nil => exact .refl s
  | cons x xs ih => exact (hg s x).trans (ih (g s x))

theorem weight_le (f : EirFunction) (e : Entries) (b : ℕ) : weight f e b ≤ f.tempCount + 1 := by
  unfold weight
  split
  · exact Nat.le_succ_of_le (heldCount_le ..)
  · exact Nat.le_refl _

/-- A change at one block changes the measure as it changes the weight of this block. -/
theorem measure_update {n : ℕ} (hn : n < f.blocks.length) (hother : ∀ b, b ≠ n → weight f s'.1 b = weight f s.1 b)
    (hle : weight f s'.1 n ≤ weight f s.1 n) (hlt : s'.2 = true → s.2 = true ∨ weight f s'.1 n < weight f s.1 n) : Lowers f s s' := by
  have hall : ∀ b ∈ Finset.range f.blocks.length, weight f s'.1 b ≤ weight f s.1 b := by
    intro b _
    rcases eq_or_ne b n with rfl | hne
    · exact hle
    · exact (hother b hne).le
  refine ⟨Finset.sum_le_sum hall,fun hc => (hlt hc).imp_right fun hlt => ?_⟩
  exact Finset.sum_lt_sum hall ⟨n,Finset.mem_range.mpr hn,hlt⟩

theorem visitSuccessor_lowers (s : Entries × Bool) (successor : ℤ) : Lowers f s (visitSuccessor f defined terminator s successor) := by
  unfold visitSuccessor
  split
  · exact .refl s
  · rename_i hin
    rw [not_or,Int.not_lt,ge_iff_le,Int.not_le] at hin
    have hn : successor.toNat < f.blocks.length := by omega
    dsimp only
    split
    · rename_i hfirst
      have hold : weight f s.1 successor.toNat = f.tempCount + 1 := by
        rw [weight,if_neg]
        rw [hfirst]
        exact Bool.false_ne_true
      have hless : ∀ e : Entries, e.reached successor.toNat = true → weight f e successor.toNat < f.tempCount + 1 := by
        intro e he
        rw [weight,if_pos he]
        exact Nat.lt_succ_of_le (heldCount_le ..)
      refine measure_update hn (fun b hne => ?_) (by rw [hold]; exact weight_le ..) fun _ => .inr ?_
      · exact weight_congr (Function.update_of_ne hne ..) (Function.update_of_ne hne ..)
      · rw [hold]
        exact hless _ (Function.update_self ..)
    · rename_i hfound
      have hreached : s.1.reached successor.toNat = true := eq_true_of_ne_false hfound
      have hsub : ∀ i, (if i < f.tempCount then s.1.definedAtEntry successor.toNat i && reachingAt f defined terminator successor i
          else s.1.definedAtEntry successor.toNat i) = true → s.1.definedAtEntry successor.toNat i = true := by
        intro i hi
        split at hi
        · exact (Bool.and_eq_true _ _ ▸ hi).1
        · exact hi
      have hold : weight f s.1 successor.toNat = heldCount f (s.1.definedAtEntry successor.toNat) := if_pos hreached
      have hnew : weight f ⟨s.1.reached,Function.update s.1.definedAtEntry successor.toNat fun i =>
          if i < f.tempCount then s.1.definedAtEntry successor.toNat i && reachingAt f defined terminator successor i
          else s.1.definedAtEntry successor.toNat i⟩ successor.toNat = heldCount f fun i =>
            if i < f.tempCount then s.1.definedAtEntry successor.toNat i && reachingAt f defined terminator successor i
            else s.1.definedAtEntry successor.toNat i := by
        rw [weight,if_pos hreached]
        dsimp only
        rw [Function.update_self]
      refine measure_update hn (fun b hne => ?_) ?_ fun hc => ?_
      · exact weight_congr rfl (Function.update_of_ne hne ..)
      · dsimp only
        rw [hnew,hold]
        exact Finset.card_le_card (Finset.monotone_filter_right _ fun i _ => hsub i)
      · dsimp only at hc ⊢
        rw [Bool.or_eq_true,List.any_eq_true] at hc
        refine hc.imp_right fun ⟨i,hi,hlost⟩ => ?_
        rw [Bool.and_eq_true,Bool.not_eq_true'] at hlost
        have hi : i < f.tempCount := List.mem_range.mp hi
        rw [hnew,hold]
        refine Finset.card_lt_card ⟨Finset.monotone_filter_right _ fun i _ => hsub i,fun hback => ?_⟩
        have hin := hback (Finset.mem_filter.mpr ⟨Finset.mem_range.mpr hi,hlost.1⟩)
        have hkept := (Finset.mem_filter.mp hin).2
        dsimp only at hkept
        rw [if_pos hi,hlost.2,Bool.and_false] at hkept
        cases hkept

theorem visitBlock_lowers (s : Entries × Bool) (b : ℕ) : Lowers f s (visitBlock f s b) := by
  unfold visitBlock
  split
  · exact .refl s
  · cases f.blocks[b]? with
    | none => exact .refl s
    | some block => exact foldl_lowers visitSuccessor_lowers _ _

theorem round_lowers (h : (round f e).2 = true) : measure f (round f e).1 < measure f e :=
  ((foldl_lowers visitBlock_lowers _ _).2 h).resolve_left Bool.false_ne_true

theorem measure_le (f : EirFunction) (e : Entries) : measure f e ≤ f.blocks.length * (f.tempCount + 1) := by
  refine Nat.le_trans (Finset.sum_le_card_nsmul _ _ (f.tempCount + 1) fun b _ => weight_le f e b) ?_
  rw [Finset.card_range,Nat.nsmul_eq_mul]

theorem checkDefiniteDefinition_ends (f : EirFunction) : ∃ problems, checkDefiniteDefinition f = some problems := by
  unfold checkDefiniteDefinition
  split
  · exact ⟨[],rfl⟩
  · obtain ⟨e,he⟩ := untilSame_measure (measure f) (fun _ => round_lowers) (Nat.lt_succ_of_le (measure_le f (start f)))
    exact ⟨_,by rw [rounds,he,Option.map_some]⟩

/-! ### Paths define what the sets hold -/

/-- The entry block is reached, with no more than what is defined before it runs. -/
def Begins (f : EirFunction) (e : Entries) : Prop :=
  e.reached 0 = true ∧ ∀ i, e.definedAtEntry 0 i = true → i < f.entryTempCount

theorem start_begins : Begins f (start f) :=
  ⟨rfl,fun _ hi => (of_decide_eq_true hi).2⟩

theorem foldl_begins {β : Type*} {g : Entries × Bool → β → Entries × Bool} (hg : ∀ s x, Begins f s.1 → Begins f (g s x).1) (xs : List β)
    {s : Entries × Bool} (hs : Begins f s.1) : Begins f (xs.foldl g s).1 := by
  induction xs generalizing s with
  | nil => exact hs
  | cons x xs ih => exact ih (hg s x hs)

theorem visitSuccessor_begins (s : Entries × Bool) (successor : ℤ) (hs : Begins f s.1) :
    Begins f (visitSuccessor f defined terminator s successor).1 := by
  unfold visitSuccessor
  split
  · exact hs
  · dsimp only
    split
    · rename_i hfirst
      have hne : 0 ≠ successor.toNat := fun h => by
        rw [← h,hs.1] at hfirst
        cases hfirst
      refine ⟨?_,fun i hi => ?_⟩
      · dsimp only
        rw [Function.update_of_ne hne]
        exact hs.1
      · dsimp only at hi
        rw [Function.update_of_ne hne] at hi
        exact hs.2 i hi
    · refine ⟨hs.1,fun i hi => ?_⟩
      dsimp only at hi
      rcases eq_or_ne 0 successor.toNat with heq | hne
      · rw [← heq,Function.update_self] at hi
        split at hi
        · exact hs.2 i (Bool.and_eq_true _ _ ▸ hi).1
        · exact hs.2 i hi
      · rw [Function.update_of_ne hne] at hi
        exact hs.2 i hi

theorem visitBlock_begins (s : Entries × Bool) (b : ℕ) (hs : Begins f s.1) : Begins f (visitBlock f s b).1 := by
  unfold visitBlock
  split
  · exact hs
  · cases f.blocks[b]? with
    | none => exact hs
    | some block => exact foldl_begins visitSuccessor_begins _ hs

theorem round_begins (h : Begins f e) : Begins f (round f e).1 := foldl_begins visitBlock_begins _ h

/-- At a place of a block that a path reaches, the set of the check holds no more than what the path has defined. -/
structure Covers (f : EirFunction) (e : Entries) (b : ℕ) (rest : List Instruction) (D : Set ℤ) : Prop where
  reached : e.reached b = true
  place : ∃ block done, f.blocks[b]? = some block ∧ block.instructions = done ++ rest ∧
    ∀ i < f.tempCount, definedAfter f done (e.definedAtEntry b) i = true → (i : ℤ) ∈ D

theorem Path.covers (hb : Begins f e) (ha : ∀ b < f.blocks.length, Agrees f e b) (h : Path f b rest D) : Covers f e b rest D := by
  induction h with
  | @entry block hblock => exact ⟨hb.1,block,[],hblock,rfl,fun i _ hd => ⟨Int.natCast_nonneg i,Int.ofNat_lt.mpr (hb.2 i hd)⟩⟩
  | @instruction b instruction rest D _ ih =>
    obtain ⟨block,done,hblock,hsplit,hcover⟩ := ih.place
    refine ⟨ih.reached,block,done ++ [instruction],hblock,by rw [hsplit,List.append_assoc]; rfl,fun i hi hd => ?_⟩
    rw [definedAfter_concat] at hd
    rcases define_true hd with hd | hd
    · exact Set.mem_insert_of_mem _ (hcover i hi hd)
    · exact hd ▸ Set.mem_insert _ _
  | @edge b block next terminator target defs D _ hblock hterm hedge h0 hnext ih =>
    obtain ⟨block',done,hblock',hsplit,hcover⟩ := ih.place
    cases hblock.symm.trans hblock'
    rw [List.append_nil] at hsplit
    obtain ⟨htarget,hdefs⟩ := edge_spec hedge
    have hn : target.toNat < f.blocks.length := (List.getElem?_eq_some_iff.mp hnext).1
    have hagree := ha b (List.getElem?_eq_some_iff.mp hblock).1 ih.reached block hblock target (by rw [successorsOf,hterm]; exact htarget)
    obtain ⟨hreached,hkept⟩ := hagree h0 (by omega)
    refine ⟨hreached,next,[],hnext,rfl,fun i hi hd => ?_⟩
    have hd := hkept i hi hd
    rw [hterm,hsplit] at hd
    rcases foldl_define_true hd with hd | hd
    · exact .inl (hcover i hi hd)
    · exact .inr (hdefs i hd)

theorem checkUses_nil {label : String} {uses : List ℤ} (h : checkUses f label defined uses = []) :
    ∀ used ∈ uses, validTemp f used → defined used.toNat = true := by
  intro used hused hvalid
  have hnone := List.filter_eq_nil_iff.mp (List.map_eq_nil_iff.mp h) used hused
  rw [decide_eq_true hvalid,Bool.true_and,Bool.not_eq_true',Bool.not_eq_false] at hnone
  exact hnone

theorem checkInstructions_nil {label : String} {instruction : Instruction} (done : List Instruction)
    (h : checkInstructions f label (done ++ instruction :: rest) defined = []) :
    checkUses f label (definedAfter f done defined) (usesOf instruction) = [] := by
  induction done generalizing defined with
  | nil => exact (List.append_eq_nil_iff.mp h).1
  | cons first done ih => exact ih (List.append_eq_nil_iff.mp h).2

/-- For every function in which the check finds nothing: on every path from the entry, whatever an instruction or a terminator uses has been
defined before it. -/
theorem accepted_definite (f : EirFunction) (h : checkDefiniteDefinition f = some []) :
    (∀ b instruction rest D, Path f b (instruction :: rest) D → ∀ used ∈ usesOf instruction, validTemp f used → used ∈ D) ∧
    ∀ b D block terminator, Path f b [] D → f.blocks[b]? = some block → block.terminator = some terminator →
      ∀ used ∈ terminatorUsesOf terminator, validTemp f used → used ∈ D := by
  unfold checkDefiniteDefinition at h
  split at h
  · rename_i hempty
    have hnone : ∀ b block, f.blocks[b]? ≠ some block := fun b block hb => by
      rw [hempty,List.getElem?_nil] at hb
      cases hb
    have hpath : ∀ {b rest D}, ¬Path f b rest D := by
      intro b rest D hp
      induction hp with
      | @entry block hblock => exact hnone 0 block hblock
      | instruction _ ih => exact ih
      | edge _ _ _ _ _ _ ih => exact ih
    exact ⟨fun _ _ _ _ hp => absurd hp hpath,fun _ _ _ _ hp => absurd hp hpath⟩
  · obtain ⟨e,he,hproblems⟩ := Option.map_eq_some_iff.mp h
    obtain ⟨u,hu,hquiet,hlast⟩ := untilSame_last (fun _ => round_begins) start_begins he
    obtain ⟨hsame,hagrees⟩ := round_quiet hquiet
    obtain rfl : u = e := hsame.symm.trans hlast
    have hblocks : ∀ b < f.blocks.length, checkBlock f u b = [] := fun b hb =>
      List.flatMap_eq_nil_iff.mp hproblems b (List.mem_range.mpr hb)
    have hplace : ∀ {b rest D}, Path f b rest D → ∃ block done, f.blocks[b]? = some block ∧ block.instructions = done ++ rest ∧
        (∀ i < f.tempCount, definedAfter f done (u.definedAtEntry b) i = true → (i : ℤ) ∈ D) ∧
        checkInstructions f block.label block.instructions (u.definedAtEntry b) = [] ∧
        ∀ terminator, block.terminator = some terminator →
          checkUses f block.label (definedAfter f block.instructions (u.definedAtEntry b)) (terminatorUsesOf terminator) = [] := by
      intro b rest D hp
      obtain ⟨hreached,block,done,hblock,hsplit,hcover⟩ := hp.covers hu hagrees
      have hcheck := hblocks b (List.getElem?_eq_some_iff.mp hblock).1
      rw [checkBlock,if_neg (by rw [hreached]; exact nofun),hblock] at hcheck
      obtain ⟨hinstructions,hterminator⟩ := List.append_eq_nil_iff.mp hcheck
      refine ⟨block,done,hblock,hsplit,hcover,hinstructions,fun terminator ht => ?_⟩
      rw [ht] at hterminator
      exact hterminator
    have htemp : ∀ {used : ℤ} {defined : Temps} {D : Set ℤ}, validTemp f used → defined used.toNat = true →
        (∀ i < f.tempCount, defined i = true → (i : ℤ) ∈ D) → used ∈ D := by
      intro used defined D hvalid hdefined hcover
      have h := hcover used.toNat (by obtain ⟨h0,h1⟩ := hvalid; omega) hdefined
      rwa [Int.toNat_of_nonneg hvalid.1] at h
    constructor
    · intro b instruction rest D hp used hused hvalid
      obtain ⟨block,done,-,hsplit,hcover,hcheck,-⟩ := hplace hp
      rw [hsplit] at hcheck
      exact htemp hvalid (checkUses_nil (checkInstructions_nil done hcheck) used hused hvalid) hcover
    · intro b D block terminator hp hblock hterm used hused hvalid
      obtain ⟨block',done,hblock',hsplit,hcover,-,hcheck⟩ := hplace hp
      cases hblock.symm.trans hblock'
      rw [List.append_nil] at hsplit
      have hcheck := hcheck terminator hterm
      rw [hsplit] at hcheck
      exact htemp hvalid (checkUses_nil hcheck used hused hvalid) hcover

def callsInLoop : EirFunction := {
  symbol := "calls"
  receiver := false
  parameters := 1
  tempCount := 4
  blocks := [
    ⟨"b0",[.constBool 1],some (.jump 1)⟩,
    ⟨"b1",[],some (.branch 1 2 3)⟩,
    ⟨"b2",[],some (.tryCall 2 (-1) [0] 3 1 4)⟩,
    ⟨"b3",[],some (.ret 0)⟩,
    ⟨"b4",[.release 3],some (.ret 0)⟩] }

/-- The error is defined where the call threw it. -/
theorem accepted_definite_callsInLoop : ∃ D, Path callsInLoop 4 [.release 3] D ∧ 3 ∈ D := by
  have b0 : callsInLoop.blocks[0]? = some ⟨"b0",[.constBool 1],some (.jump 1)⟩ := rfl
  have b1 : callsInLoop.blocks[(1 : ℤ).toNat]? = some ⟨"b1",[],some (.branch 1 2 3)⟩ := rfl
  have b2 : callsInLoop.blocks[(2 : ℤ).toNat]? = some ⟨"b2",[],some (.tryCall 2 (-1) [0] 3 1 4)⟩ := rfl
  have b4 : callsInLoop.blocks[(4 : ℤ).toNat]? = some ⟨"b4",[.release 3],some (.ret 0)⟩ := rfl
  have h0 := Path.entry b0
  have h1 := Path.edge h0.instruction b0 rfl (List.mem_singleton_self ((1 : ℤ),[])) (by decide) b1
  have h2 := Path.edge h1 b1 rfl (List.mem_cons_self (a := ((2 : ℤ),[]))) (by decide) b2
  have h4 := Path.edge h2 b2 rfl (List.mem_cons_of_mem _ (List.mem_singleton_self ((4 : ℤ),[3]))) (by decide) b4
  exact ⟨_,h4,(accepted_definite callsInLoop (by decide +kernel)).1 4 (.release 3) [] _ h4 3 (by decide) (by decide)⟩

/-! ### What the check reports -/

def Distinct : Terminator → Prop
  | .tryCall result _ _ errorResult _ _ => result ≠ errorResult
  | .tryClosureCall result _ _ errorResult _ _ => result ≠ errorResult
  | _ => True

def nextUses (block : Block) : List Instruction → List ℤ
  | instruction :: _ => usesOf instruction
  | [] => match block.terminator with
    | none => []
    | some terminator => terminatorUsesOf terminator

theorem call_edge {normalTarget unwindTarget errorResult : ℤ} {temp : ℕ} (hd : result ≠ errorResult)
    (h : successor ∈ [normalTarget,unwindTarget]) (hnone : (temp : ℤ) ∉ callDefsFor result errorResult normalTarget unwindTarget successor) :
    ∃ defs, (successor,defs) ∈ [(normalTarget,[result]),(unwindTarget,[errorResult])] ∧ (temp : ℤ) ∉ defs := by
  simp only [callDefsFor,List.mem_append,not_or] at hnone
  simp only [List.mem_cons,List.not_mem_nil,or_false] at h
  by_cases hone : normalTarget = unwindTarget
  · subst hone
    obtain rfl : successor = normalTarget := h.elim id id
    by_cases htemp : (temp : ℤ) = result
    · exact ⟨[errorResult],List.mem_cons_of_mem _ (List.mem_singleton_self _),fun hm => hd (htemp.symm.trans (List.mem_singleton.mp hm))⟩
    · exact ⟨[result],List.mem_cons_self,fun hm => htemp (List.mem_singleton.mp hm)⟩
  · rcases h with rfl | rfl
    · refine ⟨[result],List.mem_cons_self,fun hm => hnone.1 ?_⟩
      have htemp := List.mem_singleton.mp hm
      rw [if_pos ⟨rfl,by omega,hone⟩]
      exact hm
    · refine ⟨[errorResult],List.mem_cons_of_mem _ (List.mem_singleton_self _),fun hm => hnone.2 ?_⟩
      rw [if_pos ⟨rfl,Ne.symm hone⟩]
      exact hm

/-- A temp that does not exist on every edge to a block is missed on one. -/
theorem edge_missing {terminator : Terminator} {temp : ℕ} (hd : Distinct terminator) (h : successor ∈ successorsOfTerminator terminator)
    (hnone : (temp : ℤ) ∉ terminatorDefsFor terminator successor) : ∃ defs, (successor,defs) ∈ edgesOf terminator ∧ (temp : ℤ) ∉ defs := by
  cases terminator with
  | ret value => cases h
  | unreachable => cases h
  | propagate error => cases h
  | jump target => exact ⟨[],by rw [List.mem_singleton.mp h]; exact List.mem_singleton_self _,List.not_mem_nil⟩
  | branch condition thenTarget elseTarget =>
    refine ⟨[],?_,List.not_mem_nil⟩
    rcases List.mem_cons.mp h with rfl | h
    · exact List.mem_cons_self
    · rw [List.mem_singleton.mp h]
      exact List.mem_cons_of_mem _ (List.mem_singleton_self _)
  | switch value caseValues caseTargets defaultTarget => exact ⟨[],List.mem_map.mpr ⟨successor,h,rfl⟩,List.not_mem_nil⟩
  | tryCall result receiver arguments errorResult normalTarget unwindTarget => exact call_edge hd h hnone
  | tryClosureCall result closure arguments errorResult normalTarget unwindTarget => exact call_edge hd h hnone

theorem define_false (hi : i < f.tempCount) (h : define f defined result i = false) : defined i = false ∧ (i : ℤ) ≠ result := by
  unfold define at h
  split at h
  · rename_i hvalid
    obtain ⟨h0,-⟩ := hvalid
    rcases eq_or_ne i result.toNat with rfl | hne
    · rw [Function.update_self] at h
      cases h
    · rw [Function.update_of_ne hne] at h
      exact ⟨h,by omega⟩
  · rename_i hinvalid
    refine ⟨h,fun heq => hinvalid ⟨?_,?_⟩⟩ <;> omega

theorem foldl_define_false (defs : List ℤ) (hi : i < f.tempCount) (h : defs.foldl (define f) defined i = false) :
    defined i = false ∧ (i : ℤ) ∉ defs := by
  induction defs generalizing defined with
  | nil => exact ⟨h,List.not_mem_nil⟩
  | cons result defs ih =>
    obtain ⟨hdefined,hdefs⟩ := ih h
    obtain ⟨hdefined,hne⟩ := define_false hi hdefined
    exact ⟨hdefined,fun hm => (List.mem_cons.mp hm).elim hne hdefs⟩

theorem Path.misses (hi : i < f.tempCount) {done : List Instruction} (h : Path f b (done ++ rest) D) (hmiss : (i : ℤ) ∉ D)
    (hnone : definedAfter f done defined i = false) : defined i = false ∧ ∃ D', Path f b rest D' ∧ (i : ℤ) ∉ D' := by
  induction done generalizing D defined with
  | nil => exact ⟨hnone,D,h,hmiss⟩
  | cons instruction done ih =>
    rw [definedAfter,List.foldl_cons] at hnone
    rw [List.cons_append] at h
    obtain ⟨hdefined,-⟩ := foldl_define_false (done.map resultOf) hi (by rwa [List.foldl_map])
    obtain ⟨hdefined,hne⟩ := define_false hi hdefined
    obtain ⟨-,hpath⟩ := ih h.instruction (fun hm => (Set.mem_insert_iff.mp hm).elim hne hmiss) hnone
    exact ⟨hdefined,hpath⟩

/-- Where a set lacks a temp, some path has not defined it. -/
def Missed (f : EirFunction) (e : Entries) : Prop := ∀ b block, e.reached b = true → f.blocks[b]? = some block →
  ∀ i < f.tempCount, e.definedAtEntry b i = false → ∃ D, Path f b block.instructions D ∧ (i : ℤ) ∉ D

theorem Missed.at (h : Missed f e) (hr : e.reached b = true) (hb : f.blocks[b]? = some block) {done : List Instruction}
    (hsplit : block.instructions = done ++ rest) (hi : i < f.tempCount) (hnone : definedAfter f done (e.definedAtEntry b) i = false) :
    ∃ D, Path f b rest D ∧ (i : ℤ) ∉ D := by
  obtain ⟨hentry,-⟩ := foldl_define_false (done.map resultOf) hi (by rwa [List.foldl_map])
  obtain ⟨D,hpath,hmiss⟩ := h b block hr hb i hi hentry
  rw [hsplit] at hpath
  exact (hpath.misses hi hmiss hnone).2

theorem start_missed : Missed f (start f) := by
  intro b block hr hb i hi hnone
  obtain rfl : b = 0 := of_decide_eq_true hr
  refine ⟨_,.entry hb,fun hm => ?_⟩
  have hge := of_decide_eq_false hnone
  exact hge ⟨rfl,by have := hm.2; omega⟩

theorem visitSuccessor_missed (s : Entries × Bool) (h : Missed f s.1)
    (hpath : ∀ next, 0 ≤ successor → f.blocks[successor.toNat]? = some next → ∀ i < f.tempCount,
      reachingAt f defined terminator successor i = false → ∃ D, Path f successor.toNat next.instructions D ∧ (i : ℤ) ∉ D) :
    Missed f (visitSuccessor f defined terminator s successor).1 := by
  unfold visitSuccessor
  split
  · exact h
  rename_i hin
  rw [not_or,Int.not_lt] at hin
  dsimp only
  split
  · intro b block hr hb i hi hnone
    dsimp only at hr hnone
    rcases eq_or_ne b successor.toNat with rfl | hne
    · rw [Function.update_self,if_pos hi] at hnone
      exact hpath block hin.1 hb i hi hnone
    · rw [Function.update_of_ne hne] at hr hnone
      exact h b block hr hb i hi hnone
  · intro b block hr hb i hi hnone
    dsimp only at hr hnone
    rcases eq_or_ne b successor.toNat with rfl | hne
    · rw [Function.update_self,if_pos hi,Bool.and_eq_false_iff] at hnone
      rcases hnone with hnone | hnone
      · exact h _ block hr hb i hi hnone
      · exact hpath block hin.1 hb i hi hnone
    · rw [Function.update_of_ne hne] at hnone
      exact h b block hr hb i hi hnone

theorem foldl_missed {xs : List ℤ} {s : Entries × Bool} (h : Missed f s.1)
    (hpath : ∀ successor ∈ xs, ∀ next, 0 ≤ successor → f.blocks[successor.toNat]? = some next → ∀ i < f.tempCount,
      reachingAt f defined terminator successor i = false → ∃ D, Path f successor.toNat next.instructions D ∧ (i : ℤ) ∉ D) :
    Missed f (xs.foldl (visitSuccessor f defined terminator) s).1 := by
  induction xs generalizing s with
  | nil => exact h
  | cons x xs ih =>
    exact ih (visitSuccessor_missed s h (hpath x List.mem_cons_self)) fun successor hs => hpath successor (List.mem_cons_of_mem x hs)

theorem visitBlock_missed (hd : ∀ block ∈ f.blocks, ∀ terminator, block.terminator = some terminator → Distinct terminator)
    (s : Entries × Bool) (b : ℕ) (h : Missed f s.1) : Missed f (visitBlock f s b).1 := by
  unfold visitBlock
  split
  · exact h
  rename_i hr
  have hreached : s.1.reached b = true := eq_true_of_ne_false hr
  cases hb : f.blocks[b]? with
  | none => exact h
  | some block =>
    refine foldl_missed h fun successor hs next h0 hnext i hi hnone => ?_
    cases hterm : block.terminator with
    | none =>
      rw [successorsOf,hterm] at hs
      cases hs
    | some terminator =>
      rw [successorsOf,hterm] at hs
      rw [hterm,reachingAt] at hnone
      obtain ⟨hafter,hdefs⟩ := foldl_define_false _ hi hnone
      obtain ⟨D,hpath,hmiss⟩ := h.at hreached hb (List.append_nil _).symm hi hafter
      obtain ⟨defs,hedge,hnot⟩ := edge_missing (hd block (List.mem_of_getElem? hb) terminator hterm) hs hdefs
      exact ⟨_,hpath.edge hb hterm hedge h0 hnext,fun hm => hm.elim hmiss hnot⟩

theorem round_missed (hd : ∀ block ∈ f.blocks, ∀ terminator, block.terminator = some terminator → Distinct terminator) (h : Missed f e) :
    Missed f (round f e).1 := by
  have hfold : ∀ (xs : List ℕ) (s : Entries × Bool), Missed f s.1 → Missed f (xs.foldl (visitBlock f) s).1 := by
    intro xs
    induction xs with
    | nil => exact fun s hs => hs
    | cons x xs ih => exact fun s hs => ih _ (visitBlock_missed hd s x hs)
  exact hfold _ _ h

theorem checkUses_mem {label problem : String} {uses : List ℤ} (h : problem ∈ checkUses f label defined uses) :
    ∃ used ∈ uses, validTemp f used ∧ defined used.toNat = false ∧ problem = notDefined f label used := by
  obtain ⟨used,hused,rfl⟩ := List.mem_map.mp h
  obtain ⟨hmem,hnone⟩ := List.mem_filter.mp hused
  rw [Bool.and_eq_true,Bool.not_eq_true'] at hnone
  exact ⟨used,hmem,of_decide_eq_true hnone.1,hnone.2,rfl⟩

theorem checkInstructions_mem {label problem : String} (h : problem ∈ checkInstructions f label instructions defined) :
    ∃ done instruction rest, instructions = done ++ instruction :: rest ∧
      problem ∈ checkUses f label (definedAfter f done defined) (usesOf instruction) := by
  induction instructions generalizing defined with
  | nil => cases h
  | cons instruction instructions ih =>
    rcases List.mem_append.mp h with h | h
    · exact ⟨[],instruction,instructions,rfl,h⟩
    · obtain ⟨done,next,rest,rfl,hmem⟩ := ih h
      exact ⟨instruction :: done,next,rest,rfl,hmem⟩

/-- Whatever is reported where the sets lack only temps that some path misses happens on a path. -/
theorem Missed.reported {problem : String} (hmissed : Missed f e) (hp : problem ∈ (List.range f.blocks.length).flatMap (checkBlock f e)) :
    ∃ b block rest D used, f.blocks[b]? = some block ∧ Path f b rest D ∧ used ∈ nextUses block rest ∧ validTemp f used ∧ used ∉ D ∧
      problem = notDefined f block.label used := by
  obtain ⟨b,-,hb⟩ := List.mem_flatMap.mp hp
  rw [checkBlock] at hb
  split_ifs at hb with hr
  · cases hb
  cases hblock : f.blocks[b]? with
  | none =>
    rw [hblock] at hb
    cases hb
  | some block =>
    rw [hblock] at hb
    have hreached : e.reached b = true := eq_true_of_ne_false hr
    have hplace : ∀ {done rest used}, block.instructions = done ++ rest → validTemp f used →
        definedAfter f done (e.definedAtEntry b) used.toNat = false → ∃ D, Path f b rest D ∧ used ∉ D := by
      intro done rest used hsplit hvalid hnone
      obtain ⟨h0,hlt⟩ := hvalid
      obtain ⟨D,hpath,hmiss⟩ := hmissed.at hreached hblock hsplit (by omega) hnone
      exact ⟨D,hpath,by rwa [Int.toNat_of_nonneg h0] at hmiss⟩
    rcases List.mem_append.mp hb with hb | hb
    · obtain ⟨done,instruction,rest,hsplit,hmem⟩ := checkInstructions_mem hb
      obtain ⟨used,hused,hvalid,hnone,rfl⟩ := checkUses_mem hmem
      obtain ⟨D,hpath,hmiss⟩ := hplace hsplit hvalid hnone
      exact ⟨b,block,instruction :: rest,D,used,hblock,hpath,hused,hvalid,hmiss,rfl⟩
    · cases hterm : block.terminator with
      | none =>
        rw [hterm] at hb
        cases hb
      | some terminator =>
        rw [hterm] at hb
        obtain ⟨used,hused,hvalid,hnone,rfl⟩ := checkUses_mem hb
        obtain ⟨D,hpath,hmiss⟩ := hplace (List.append_nil _).symm hvalid hnone
        exact ⟨b,block,[],D,used,hblock,hpath,by rw [nextUses,hterm]; exact hused,hvalid,hmiss,rfl⟩

theorem check_missed (hd : ∀ block ∈ f.blocks, ∀ terminator, block.terminator = some terminator → Distinct terminator) {problems : List String}
    (h : checkDefiniteDefinition f = some problems) : problems = [] ∨ ∃ e, Missed f e ∧
      problems = (List.range f.blocks.length).flatMap (checkBlock f e) := by
  unfold checkDefiniteDefinition at h
  split at h
  · cases h
    exact .inl rfl
  obtain ⟨e,he,rfl⟩ := Option.map_eq_some_iff.mp h
  exact .inr ⟨e,untilSame_keeps (fun _ => round_missed hd) (round_missed hd start_missed) he,rfl⟩

/-- Whatever the check reports happens on a path: the temp it names is read at a place that the path reaches without defining it. -/
theorem reported_undefined (hd : ∀ block ∈ f.blocks, ∀ terminator, block.terminator = some terminator → Distinct terminator)
    {problems : List String} {problem : String} (h : checkDefiniteDefinition f = some problems) (hp : problem ∈ problems) :
    ∃ b block rest D used, f.blocks[b]? = some block ∧ Path f b rest D ∧ used ∈ nextUses block rest ∧ validTemp f used ∧ used ∉ D ∧
      problem = notDefined f block.label used := by
  rcases check_missed hd h with rfl | ⟨e,hmissed,rfl⟩
  · cases hp
  · exact hmissed.reported hp

def definesOnce : EirFunction := {
  symbol := "once"
  receiver := false
  parameters := 1
  tempCount := 2
  blocks := [
    ⟨"b0",[],some (.branch 0 1 2)⟩,
    ⟨"b1",[.constInt 1],some (.jump 3)⟩,
    ⟨"b2",[],some (.jump 3)⟩,
    ⟨"b3",[],some (.ret 1)⟩] }

theorem reported_undefined_definesOnce : ∃ b block rest D used, definesOnce.blocks[b]? = some block ∧ Path definesOnce b rest D ∧
    used ∈ nextUses block rest ∧ validTemp definesOnce used ∧ used ∉ D ∧
    "once: b3: %1 is used before it is definitely defined" = notDefined definesOnce block.label used := by
  have hd : ∀ block ∈ definesOnce.blocks, ∀ terminator, block.terminator = some terminator → Distinct terminator := by
    intro block hb terminator ht
    simp only [definesOnce,List.mem_cons,List.not_mem_nil,or_false] at hb
    rcases hb with rfl | rfl | rfl | rfl <;> cases ht <;> trivial
  have hcheck : checkDefiniteDefinition definesOnce = some ["once: b3: %1 is used before it is definitely defined"] := by decide +kernel
  exact reported_undefined hd hcheck (List.mem_singleton_self _)

/-- On every path whatever is read has been defined. -/
def AlwaysDefined (f : EirFunction) : Prop := ∀ b block rest D used, f.blocks[b]? = some block → Path f b rest D → used ∈ nextUses block rest →
  validTemp f used → used ∈ D

theorem AlwaysDefined.accepted (hd : ∀ block ∈ f.blocks, ∀ terminator, block.terminator = some terminator → Distinct terminator)
    (h : AlwaysDefined f) : checkDefiniteDefinition f = some [] := by
  obtain ⟨problems,hproblems⟩ := checkDefiniteDefinition_ends f
  rcases check_missed hd hproblems with rfl | ⟨e,hmissed,rfl⟩
  · exact hproblems
  rw [hproblems]
  refine congrArg some (List.eq_nil_iff_forall_not_mem.mpr fun problem hp => ?_)
  obtain ⟨b,block,rest,D,used,hblock,hpath,hused,hvalid,hmiss,-⟩ := hmissed.reported hp
  exact hmiss (h b block rest D used hblock hpath hused hvalid)

end Ens.Eir
