import Ens.Throws.Computed
import Mathlib.Order.FixedPoints
import Mathlib.Data.Set.Finite.Lattice
import Mathlib.Data.Set.Finite.List

/-! # Orders of inference

The rules have least sets, and markers count for functions whose sets are empty. The order of the modules and of what is in them
decides which sets are still empty when a callable is computed for the first time.
-/
namespace Ens.Throws
open ThrowSet
variable {D T : Type} [DecidableEq D] [DecidableEq T]

def start (h : Types D T) : Registry h := fun _ => .empty

def itemsOf (modules : List (Module D T)) : List (Item D T) := modules.flatMap Module.items

def rules (h : Types D T) (modules : List (Module D T)) (K : Signature D T → Prop) : Facts D T →o Facts D T where
  toFun S d f := ∃ item ∈ itemsOf modules, item.declaration = d ∧ outwardFacts h K S item f
  monotone' _ _ hS _ _ := fun ⟨item,hi,hd,hf⟩ => ⟨item,hi,hd,outwardFacts_mono (fun _ => id) hS hf⟩

/-- The least sets under the rules, where the markers that count are those of the functions whose sets are empty. -/
def Consistent (h : Types D T) (modules : List (Module D T)) (S : Facts D T) : Prop := S = (rules h modules (Silent h S)).lfp

/-- The same modules in some order, each with the same callables in some order. -/
def Reordered (modules modules' : List (Module D T)) : Prop :=
  ∃ ms, ms.Perm modules ∧ List.Forall₂ (fun m m' => m.functionItems.Perm m'.functionItems ∧ m.testItems.Perm m'.testItems ∧
    m.lambdaItems.Perm m'.lambdaItems) ms modules'

/-- The inference ends with the sets of these facts. -/
def EndsWith (h : Types D T) (modules : List (Module D T)) (S : Facts D T) : Prop :=
  ∃ n r, settle modules n (start h) = some r ∧ factsOf r = S

/-- So it does whichever order the program has. -/
def EndsInAnyOrder (h : Types D T) (modules : List (Module D T)) (S : Facts D T) : Prop :=
  ∀ modules', Reordered modules modules' → EndsWith h modules' S

def reached (h : Types D T) (before : List (Item D T)) : Registry h := (before.foldl computeItem (start h,false)).1

/-- When a callable is computed for the first time, the markers of the functions whose sets are then empty give it nothing but facts
it has. -/
def MarkersHold (h : Types D T) (modules : List (Module D T)) (S : Facts D T) : Prop :=
  ∀ before item after, itemsOf modules = before ++ item :: after →
    ∀ f, outwardFacts h (Silent h (factsOf (reached h before))) noFacts item f → S item.declaration f

variable {h : Types D T} {modules modules' : List (Module D T)} {S : Facts D T} {r : Registry h} {item : Item D T} {d : D} {f : Fact T}

omit [DecidableEq D] [DecidableEq T] in
theorem mem_itemsOf_reordered (hp : Reordered modules modules') : item ∈ itemsOf modules' ↔ item ∈ itemsOf modules := by
  obtain ⟨ms,hperm,hall⟩ := hp
  have hsame : item ∈ itemsOf modules' ↔ item ∈ itemsOf ms := by
    clear hperm
    induction hall with
    | nil => exact Iff.rfl
    | cons hm hall ih =>
      rw [itemsOf,itemsOf,List.flatMap_cons,List.flatMap_cons,List.mem_append,List.mem_append]
      refine or_congr ?_ ih
      simp only [Module.items,List.mem_append,hm.1.mem_iff,hm.2.1.mem_iff,hm.2.2.mem_iff]
  rw [hsame,itemsOf,itemsOf,List.mem_flatMap,List.mem_flatMap]
  exact exists_congr fun m => and_congr_left' hperm.mem_iff

omit [DecidableEq T] in
theorem Consistent.reordered (hc : Consistent h modules S) (hp : Reordered modules modules') : Consistent h modules' S := by
  have hrules : rules h modules' = rules h modules := by
    funext K
    refine OrderHom.ext _ _ (funext fun S => funext fun d => funext fun f => propext ?_)
    exact exists_congr fun item => and_congr_left' (mem_itemsOf_reordered hp)
  rw [Consistent,hrules]
  exact hc

omit [DecidableEq D] [DecidableEq T] in
theorem silent_anti {S' : Facts D T} (hS : S ≤ S') {signature : Signature D T} (hs : Silent h S' signature) : Silent h S signature :=
  fun f hf => hs f (contractFacts_mono hS hf)

omit [DecidableEq T] in
theorem Consistent.closed (hc : Consistent h modules S) (hi : item ∈ itemsOf modules) (hf : outwardFacts h (Silent h S) S item f) :
    S item.declaration f := by
  have hle : rules h modules (Silent h S) S ≤ S := by
    calc rules h modules (Silent h S) S = rules h modules (Silent h S) (rules h modules (Silent h S)).lfp := congrArg _ hc
      _ = (rules h modules (Silent h S)).lfp := OrderHom.map_lfp _
      _ ≤ S := hc.ge
  exact hle _ _ ⟨item,hi,rfl,hf⟩

omit [DecidableEq T] in
theorem Consistent.least (hc : Consistent h modules S) {S' : Facts D T}
    (hS' : ∀ item ∈ itemsOf modules, ∀ f, outwardFacts h (Silent h S) S' item f → S' item.declaration f) : S ≤ S' := by
  refine hc.le.trans (OrderHom.lfp_le _ ?_)
  rintro d f ⟨item,hi,rfl,hf⟩
  exact hS' item hi f hf

/-! ### One callable -/

theorem holds_computeItem {state : Registry h × Bool} : factsOf (computeItem state item).1 d f ↔
    factsOf state.1 d f ∨ d = item.declaration ∧ outwardFacts h (Silent h (factsOf state.1)) (factsOf state.1) item f := by
  rw [factsOf,computeItem]
  dsimp only
  split_ifs with hd
  · rw [(addAll_adds _ _).holds,hd,holds_outwardOf]
    exact or_congr_right ⟨fun hf => ⟨rfl,hf⟩,And.right⟩
  · simp [hd,factsOf]

theorem computeItem_le (state : Registry h × Bool) (item : Item D T) : factsOf state.1 ≤ factsOf (computeItem state item).1 :=
  fun _ _ hf => holds_computeItem.mpr (.inl hf)

theorem computeItem_grew {state : Registry h × Bool} (hg : (computeItem state item).2 = true) :
    state.2 = true ∨ ∃ d f, factsOf (computeItem state item).1 d f ∧ ¬factsOf state.1 d f := by
  refine (Bool.or_eq_true _ _ ▸ hg : _ ∨ _).imp_right fun hg => ?_
  obtain ⟨f,hf,hn⟩ := (addAll_adds (state.1 item.declaration) (outwardOf state.1 item)).grew hg
  exact ⟨item.declaration,f,holds_computeItem.mpr (.inr ⟨rfl,holds_outwardOf.mp hf⟩),hn⟩

/-- A set that is said to be the same is the same, and has all that its callable lets escape. -/
theorem computeItem_same {state : Registry h × Bool} (hg : (computeItem state item).2 = false) :
    state.2 = false ∧ (computeItem state item).1 = state.1 ∧
      ∀ f, outwardFacts h (Silent h (factsOf state.1)) (factsOf state.1) item f → factsOf state.1 item.declaration f := by
  obtain ⟨hb,hg⟩ := Bool.or_eq_false_iff.mp hg
  have hadds := addAll_adds (state.1 item.declaration) (outwardOf state.1 item)
  have hsame : ((state.1 item.declaration).addAll (outwardOf state.1 item)).1 = state.1 item.declaration := hadds.same hg
  refine ⟨hb,funext fun d => ?_,fun f hf => ?_⟩
  · rw [computeItem]
    dsimp only
    split_ifs with hd
    · rw [hd,hsame]
    · rfl
  · have hf : ((state.1 item.declaration).addAll (outwardOf state.1 item)).1.Holds f :=
      (hadds.holds f).mpr (.inr (holds_outwardOf.mpr hf))
    rw [hsame] at hf
    exact hf

/-! ### Rounds -/

theorem round_eq (modules : List (Module D T)) (r : Registry h) : round modules r = (itemsOf modules).foldl computeItem (r,false) := by
  rw [itemsOf,List.foldl_flatMap]
  rfl

theorem foldl_le (items : List (Item D T)) (state : Registry h × Bool) : factsOf state.1 ≤ factsOf (items.foldl computeItem state).1 := by
  induction items generalizing state with
  | nil => exact le_rfl
  | cons item items ih => exact (computeItem_le state item).trans (ih _)

theorem foldl_grew {items : List (Item D T)} {state : Registry h × Bool} (hg : (items.foldl computeItem state).2 = true) :
    state.2 = true ∨ ∃ d f, factsOf (items.foldl computeItem state).1 d f ∧ ¬factsOf state.1 d f := by
  induction items generalizing state with
  | nil => exact .inl hg
  | cons item items ih =>
    rcases ih hg with hg | ⟨d,f,hf,hn⟩
    · refine (computeItem_grew hg).imp_right ?_
      rintro ⟨d,f,hf,hn⟩
      exact ⟨d,f,foldl_le items _ d f hf,hn⟩
    · exact .inr ⟨d,f,hf,fun hs => hn (computeItem_le state item d f hs)⟩

theorem foldl_same {items : List (Item D T)} {state : Registry h × Bool} (hg : (items.foldl computeItem state).2 = false) :
    state.2 = false ∧ (items.foldl computeItem state).1 = state.1 ∧ ∀ item ∈ items, ∀ f,
      outwardFacts h (Silent h (factsOf state.1)) (factsOf state.1) item f → factsOf state.1 item.declaration f := by
  induction items generalizing state with
  | nil => exact ⟨hg,rfl,nofun⟩
  | cons item items ih =>
    obtain ⟨hb,hr,hall⟩ := ih hg
    obtain ⟨hb,hr',hone⟩ := computeItem_same hb
    rw [hr'] at hr hall
    refine ⟨hb,hr,fun i hi => ?_⟩
    rcases List.mem_cons.mp hi with rfl | hi
    · exact hone
    · exact hall i hi

theorem foldl_keeps {I : Registry h → Prop} {items : List (Item D T)} (hI : ∀ item ∈ items, ∀ state : Registry h × Bool, I state.1 →
    I (computeItem state item).1) {state : Registry h × Bool} (hs : I state.1) : I (items.foldl computeItem state).1 := by
  induction items generalizing state with
  | nil => exact hs
  | cons item items ih => exact ih (fun i hi => hI i (List.mem_cons_of_mem _ hi)) (hI item List.mem_cons_self state hs)

theorem round_keeps {I : Registry h → Prop} (hI : ∀ item ∈ itemsOf modules, ∀ state : Registry h × Bool, I state.1 →
    I (computeItem state item).1) (hr : I r) : I (round modules r).1 := by
  rw [round_eq]
  exact foldl_keeps hI hr

end Ens.Throws
