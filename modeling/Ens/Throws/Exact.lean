import Ens.Throws.Order
import Mathlib.Order.CompletePartialOrder

/-! # Where inference ends

With markers that hold, the sets stay inside the least ones and the last round leaves nothing out, whatever the order.
-/
set_option linter.all false
namespace Ens.Throws
open ThrowSet
variable {D T : Type} [DecidableEq D] [DecidableEq T]
variable {h : Types D T} {modules modules' : List (Module D T)} {S : Facts D T} {r : Registry h} {item : Item D T} {d : D} {f : Fact T}

omit [DecidableEq D] [DecidableEq T] in
theorem factsOf_start : ¬factsOf (start h) d f := not_holds_empty

def held (r : Registry h) : Set (D × Fact T) := {p | factsOf r p.1 p.2}

/-- What holds of a registry after a round: it is inside the least sets, and so is what its markers give. -/
structure Inside (modules : List (Module D T)) (S : Facts D T) (r : Registry h) : Prop where
  le : factsOf r ≤ S
  marked : ∀ item ∈ itemsOf modules, ∀ f, outwardFacts h (Silent h (factsOf r)) noFacts item f → S item.declaration f

omit [DecidableEq T] in
theorem outward_inside (hc : Consistent h modules S) (hi : item ∈ itemsOf modules) (hle : factsOf r ≤ S)
    (hm : ∀ f, outwardFacts h (Silent h (factsOf r)) noFacts item f → S item.declaration f)
    (hf : outwardFacts h (Silent h (factsOf r)) (factsOf r) item f) : S item.declaration f := by
  rcases outwardFacts_apart hf with hf | hf
  · exact hc.closed hi (outwardFacts_mono (fun _ => False.elim) hle hf)
  · exact hm f hf

theorem computeItem_inside (hc : Consistent h modules S) (hi : item ∈ itemsOf modules) {state : Registry h × Bool}
    (hle : factsOf state.1 ≤ S) (hm : ∀ f, outwardFacts h (Silent h (factsOf state.1)) noFacts item f → S item.declaration f) :
    factsOf (computeItem state item).1 ≤ S := by
  intro d f hgrown
  rcases holds_computeItem.mp hgrown with hf | ⟨rfl,hf⟩
  · exact hle d f hf
  · exact outward_inside hc hi hle hm hf

theorem Inside.computeItem (hc : Consistent h modules S) (hi : item ∈ itemsOf modules) {state : Registry h × Bool}
    (hs : Inside modules S state.1) : Inside modules S (computeItem state item).1 := by
  refine ⟨computeItem_inside hc hi hs.le (hs.marked item hi),fun i hi' f hf => hs.marked i hi' f ?_⟩
  exact outwardFacts_mono (fun _ => silent_anti (computeItem_le state item)) (fun _ _ => id) hf

/-! ### The first round -/

theorem reached_append (before : List (Item D T)) (item : Item D T) : reached h (before ++ [item]) =
    (computeItem (before.foldl computeItem (start h,false)) item).1 := by
  rw [reached,List.foldl_append]
  rfl

theorem reached_le_append (before after : List (Item D T)) : factsOf (reached h before) ≤ factsOf (reached h (before ++ after)) := by
  rw [reached,reached,List.foldl_append]
  exact foldl_le after _

theorem reached_inside (hc : Consistent h modules S) (hm : MarkersHold h modules S) (before after : List (Item D T))
    (hsplit : itemsOf modules = before ++ after) : factsOf (reached h before) ≤ S := by
  induction before using List.reverseRecOn generalizing after with
  | nil => exact fun _ _ hf => absurd hf factsOf_start
  | append_singleton before item ih =>
    have hsplit : itemsOf modules = before ++ item :: after := by rw [hsplit,List.append_assoc,List.singleton_append]
    rw [reached_append]
    exact computeItem_inside hc (hsplit ▸ List.mem_append_cons_self) (ih (item :: after) hsplit) (hm before item after hsplit)

theorem round_start (modules : List (Module D T)) : (round modules (start h)).1 = reached h (itemsOf modules) := by
  rw [round_eq]
  rfl

theorem inside_firstRound (hc : Consistent h modules S) (hm : MarkersHold h modules S) :
    Inside modules S (round modules (start h)).1 := by
  rw [round_start]
  refine ⟨reached_inside hc hm _ [] (List.append_nil _).symm,fun item hi f hf => ?_⟩
  obtain ⟨before,after,hsplit⟩ := List.append_of_mem hi
  -- A marker that counts after the round counted when the callable was computed in it.
  refine hm before item after hsplit f (outwardFacts_mono (fun _ => silent_anti ?_) (fun _ _ => id) hf)
  rw [hsplit]
  exact reached_le_append before _

/-! ### The whole inference -/

theorem least_le (hc : Consistent h modules S) (hle : factsOf r ≤ S) (hg : (round modules r).2 = false) : S ≤ factsOf r := by
  rw [round_eq] at hg
  obtain ⟨-,-,hall⟩ := foldl_same hg
  exact hc.least fun item hi f hf => hall item hi f (outwardFacts_mono (fun _ => silent_anti hle) (fun _ _ => id) hf)

theorem round_grows (hg : (round modules r).2 = true) : held r ⊂ held (round modules r).1 := by
  rw [round_eq] at hg ⊢
  have hle : held r ⊆ held ((itemsOf modules).foldl computeItem (r,false)).1 := fun p hp => foldl_le _ (r,false) p.1 p.2 hp
  obtain hg | ⟨d,f,hf,hn⟩ := foldl_grew hg
  · cases hg
  · exact (Set.ssubset_iff_of_subset hle).mpr ⟨(d,f),hf,hn⟩

theorem endsWith_of_markersHold (hc : Consistent h modules S) (hfin : {p : D × Fact T | S p.1 p.2}.Finite)
    (hm : MarkersHold h modules S) : EndsWith h modules S := by
  have hI : ∀ r : Registry h, r = start h ∨ Inside modules S r → (round modules r).1 = start h ∨ Inside modules S (round modules r).1 := by
    rintro r (rfl | hr)
    · exact .inr (inside_firstRound hc hm)
    · exact .inr (round_keeps (fun item hi state => Inside.computeItem hc hi) hr)
  have hle : ∀ r : Registry h, r = start h ∨ Inside modules S r → factsOf r ≤ S := by
    rintro r (rfl | hr)
    · exact fun _ _ hf => absurd hf factsOf_start
    · exact hr.le
  obtain ⟨n,r,hr⟩ := Saturation.untilSame_ends held hfin hI
    (fun r hr p hp => hle r hr p.1 p.2 hp) (fun r _ hg => round_grows hg) (.inl rfl)
  obtain ⟨u,hu,hg,rfl⟩ := Saturation.untilSame_last hI (.inl rfl) hr
  have hsame : (round modules u).1 = u := by
    rw [round_eq] at hg ⊢
    exact (foldl_same hg).2.1
  refine ⟨n,_,hr,?_⟩
  rw [hsame]
  exact le_antisymm (hle u hu) (least_le hc (hle u hu) hg)

omit [DecidableEq D] in
theorem finite_facts (s : ThrowSet h) : {f | s.Holds f}.Finite := by
  refine (((s.memberTypes.toFinset.finite_toSet.image Fact.member).insert .unresolved).insert .certain).subset ?_
  rintro (t | _ | _) hf
  · exact .inr (.inr ⟨t,List.mem_toFinset.mpr hf,rfl⟩)
  · exact .inr (.inl rfl)
  · exact .inl rfl

theorem finite_round (hr : (held r).Finite) : (held (round modules r).1).Finite := by
  refine round_keeps (I := fun r => (held r).Finite) (fun item _ state hs => ?_) hr
  refine (hs.union ((finite_facts (outwardOf state.1 item)).image (Prod.mk item.declaration))).subset ?_
  rintro ⟨d,f⟩ hgrown
  rcases holds_computeItem.mp hgrown with hf | ⟨rfl,hf⟩
  · exact .inl hf
  · exact .inr ⟨f,holds_outwardOf.mpr hf,rfl⟩

theorem markersHold_of_endsWith (hends : EndsWith h modules S) :
    {p : D × Fact T | S p.1 p.2}.Finite ∧ MarkersHold h modules S := by
  obtain ⟨n,r,hr,rfl⟩ := hends
  constructor
  · have hstart : (held (start h)).Finite := Set.finite_empty.subset fun p hp => factsOf_start hp
    exact Saturation.untilSame_keeps (I := fun r => (held r).Finite) (fun r => finite_round) (finite_round hstart) hr
  · intro before item after hsplit f hf
    have hone : factsOf (reached h (before ++ [item])) item.declaration f := by
      rw [reached_append]
      exact holds_computeItem.mpr (.inr ⟨rfl,outwardFacts_mono (fun _ => id) (fun _ _ => False.elim) hf⟩)
    have hround : factsOf (round modules (start h)).1 item.declaration f := by
      rw [round_start,hsplit,← List.singleton_append,← List.append_assoc]
      exact reached_le_append _ _ _ _ hone
    refine Saturation.untilSame_keeps (I := fun r => factsOf r item.declaration f) (fun r hr => ?_) hround hr
    rw [round_eq]
    exact foldl_le _ (r,false) _ _ hr

end Ens.Throws

/-! ## Inference and the order of a program

Every order of a program ends with its least sets exactly when these are finite and no order counts a marker too early. A function
marked as throwing counts as raising an unresolved type as long as its set is empty, and nothing takes the type back.
-/
namespace Ens.Throws
open ThrowSet

section
variable {D T : Type} [DecidableEq D] [DecidableEq T] {h : Types D T} {modules : List (Module D T)} {S : Facts D T}

omit [DecidableEq D] [DecidableEq T] in
theorem reordered_refl (modules : List (Module D T)) : Reordered modules modules :=
  ⟨modules,.refl _,List.forall₂_same.mpr fun _ _ => ⟨.refl _,.refl _,.refl _⟩⟩

theorem endsWith_reordered_iff (hc : Consistent h modules S) : EndsInAnyOrder h modules S ↔
    {p : D × Fact T | S p.1 p.2}.Finite ∧ ∀ modules', Reordered modules modules' → MarkersHold h modules' S := by
  constructor
  · intro hall
    exact ⟨(markersHold_of_endsWith (hall modules (reordered_refl modules))).1,fun modules' hp => (markersHold_of_endsWith (hall modules' hp)).2⟩
  · rintro ⟨hfin,hmark⟩ modules' hp
    exact endsWith_of_markersHold (hc.reordered hp) hfin (hmark modules' hp)

end

/-! ### Two functions marked as throwing -/

inductive Kind
  | unresolved
  | error
  | failure
deriving DecidableEq

def kindBelow (a b : Kind) : Bool := a = b || a = .failure && b = .error

def kinds : Types ℕ Kind where
  isError t := t = .unresolved
  errorType := .unresolved
  errorType_isError := rfl
  isClassLike t := t ≠ .unresolved
  param _ := none
  pending _ := none
  listMembers _ := none
  errorBase := some .error
  isSubclassOf := kindBelow
  alwaysSubclass _ := kindBelow
  mightOverlap _ a b := kindBelow a b || kindBelow b a
  substitute t _ _ := t
  pendingUse _ := none

def marked (d : ℕ) : Signature ℕ Kind := ⟨true,[],false,some d⟩

def calling : Item ℕ Kind := .function 0 (some (.tried (.call ⟨some (marked 1),.other,none⟩ (.other []) (.other []) []))) []

def quiet : Item ℕ Kind := .function 1 (some (.other [])) []

def failing : Item ℕ Kind := .function 1 (some (.thrown (some .failure) [])) []

def quietProgram : List (Module ℕ Kind) := [⟨[calling,quiet],[],[]⟩]

def failingProgram : List (Module ℕ Kind) := [⟨[calling,failing],[],[]⟩]

def quietSets : Facts ℕ Kind := fun d f => d = 0 ∧ f = .unresolved

variable {K : Signature ℕ Kind → Prop} {S : Facts ℕ Kind} {f : Fact Kind}

theorem outwardFacts_calling (hS : ∀ f, ¬S 1 f) (hf : outwardFacts kinds K S calling f) : f = .unresolved := by
  have hm : ∀ f, markedFacts kinds K S (marked 1) f → f = .unresolved := by
    rintro f (hc | ⟨-,⟨-,hc⟩ | ⟨he,-⟩⟩)
    · exact absurd hc (hS f)
    · exact absurd hc (hS .unresolved)
    · exact he
  have hb : ∀ f, sourcesFacts kinds K (some 0) S (sources (.tried (.call ⟨some (marked 1),.other,none⟩ (.other []) (.other []) []))) f →
      f = .unresolved := by
    rintro f ⟨x,hx,hf⟩
    obtain rfl : x = .call ⟨some (marked 1),.other,none⟩ := by simpa [sources,chainSources,childSources,Node.isCall] using hx
    rcases hf with hu | ⟨t,ht,-⟩
    · cases f with
      | member t => exact hu.elim
      | unresolved => rfl
      | certain => exact hm _ hu
    · exact nomatch hm _ ht
  rcases hf with (⟨t,ht,-⟩ | hu) | ⟨p,hp,-⟩
  · exact nomatch hb _ ht
  · cases f with
    | member t => exact hu.elim
    | unresolved => rfl
    | certain => exact hb _ hu
  · cases hp

theorem not_outwardFacts_quiet : ¬outwardFacts kinds K S quiet f := by
  have hb : ∀ f, ¬sourcesFacts kinds K (some 1) S (sources (.other [])) f := by
    rintro f ⟨x,hx,-⟩
    cases hx
  rintro ((⟨t,ht,-⟩ | hu) | ⟨p,hp,-⟩)
  · exact hb _ ht
  · cases f with
    | member t => exact hu
    | unresolved => exact hb _ hu
    | certain => exact hb _ hu
  · cases hp

theorem outwardFacts_quietProgram {item : Item ℕ Kind} (hS : ∀ f, ¬S 1 f) (hi : item ∈ itemsOf quietProgram)
    (hf : outwardFacts kinds K S item f) : quietSets item.declaration f := by
  obtain rfl | rfl : item = calling ∨ item = quiet := by simpa [itemsOf,quietProgram,Module.items] using hi
  · exact ⟨rfl,outwardFacts_calling hS hf⟩
  · exact absurd hf not_outwardFacts_quiet

theorem consistent_quietSets : Consistent kinds quietProgram quietSets := by
  refine le_antisymm ?_ (OrderHom.lfp_le _ ?_)
  · rintro d f ⟨rfl,rfl⟩
    rw [← OrderHom.map_lfp]
    refine ⟨calling,by simp [itemsOf,quietProgram,Module.items],rfl,.inl (.inr ?_)⟩
    refine ⟨.call ⟨some (marked 1),.other,none⟩,by simp [sources,chainSources,childSources,Node.isCall],.inl (.inr ⟨rfl,.inr ⟨rfl,?_⟩⟩)⟩
    exact fun f hf => absurd hf.1 Nat.one_ne_zero
  · rintro d f ⟨item,hi,rfl,hf⟩
    exact outwardFacts_quietProgram (fun f hf => absurd hf.1 Nat.one_ne_zero) hi hf

theorem endsWith_quietProgram : EndsInAnyOrder kinds quietProgram quietSets := by
  refine (endsWith_reordered_iff consistent_quietSets).mpr ⟨?_,fun modules' hp before item after hsplit f hf => ?_⟩
  · refine (Set.finite_singleton ((0,.unresolved) : ℕ × Fact Kind)).subset ?_
    rintro ⟨d,f⟩ ⟨rfl,rfl⟩
    rfl
  · exact outwardFacts_quietProgram (fun _ => id) ((mem_itemsOf_reordered hp).mp (hsplit ▸ List.mem_append_cons_self)) hf

/-- The caller first holds an unresolved type, and second it does not. -/
theorem not_endsWith_failingProgram : ¬∃ S, EndsInAnyOrder kinds failingProgram S := by
  rintro ⟨S,hall⟩
  have hlast : ∀ {modules' n r}, settle modules' n (start kinds) = some r → Reordered failingProgram modules' →
      (S 0 .unresolved ↔ (r 0).holdsUnresolved = true) := by
    intro modules' n r hr hp
    obtain ⟨m,r',hr',rfl⟩ := hall modules' hp
    obtain rfl : r' = r := Saturation.untilSame_unique hr' hr
    exact Iff.rfl
  have hfirst : ((settle [⟨[calling,failing],[],[]⟩] 4 (start kinds)).map fun r => (r 0).holdsUnresolved) = some true := by decide
  have hsecond : ((settle [⟨[failing,calling],[],[]⟩] 4 (start kinds)).map fun r => (r 0).holdsUnresolved) = some false := by decide
  obtain ⟨r,hr,hheld⟩ := Option.map_eq_some_iff.mp hfirst
  obtain ⟨r',hr',hheld'⟩ := Option.map_eq_some_iff.mp hsecond
  have hswap : Reordered failingProgram [⟨[failing,calling],[],[]⟩] :=
    ⟨failingProgram,.refl _,.cons ⟨.swap _ _ _,.refl _,.refl _⟩ .nil⟩
  have hin : S 0 .unresolved := (hlast hr (reordered_refl failingProgram)).mpr hheld
  exact Bool.false_ne_true (hheld'.symm.trans ((hlast hr' hswap).mp hin))

end Ens.Throws
