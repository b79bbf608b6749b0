import Ens.Logic.Worklist
import Mathlib.Data.List.Forall2
import Mathlib.Logic.Relation

/-! # Values whose destruction is observed

Destroying a value is observed when it runs a destructor, or ends the life of an object that a weak field watches. A type can hold such a value when
it leads to the class of one: from a class or an interface to the classes below it, from a class to what its fields own, and from a function
type to what the closures made over it capture.
-/
set_option linter.all false
namespace Ens.Destruction
open Relation

/-! ### Types -/

inductive Ty (K J S F : Type)
  | plain
  | classType (k : K)
  | interface (j : J)
  | function (signature : F) (shared : Bool)
  | optional (inner : Ty K J S F)
  | array (element : Ty K J S F)
  | struct (s : S)
  deriving DecidableEq

structure Field (T : Type) where
  type : T
  weak : Bool

/-- The declarations of a program. Fields of a class come with those it inherits, and interfaces with those of its bases. -/
structure Program (K J S F : Type) where
  baseClassOf : K → Option K
  conformances : K → List J
  fieldsOf : K → List (Field (Ty K J S F))
  structFields : S → List (Ty K J S F)
  declaresDestructor : K → Bool

inductive Instruction (K J S F : Type)
  | classNew (type : K)
  | closureNew (type : Ty K J S F) (captureTypes : List (Ty K J S F))
  | other

variable {K J S F : Type} [DecidableEq K] [DecidableEq J] [DecidableEq S] [DecidableEq F]

def underOptionals : Ty K J S F → Ty K J S F
  | .optional inner => underOptionals inner
  | t => t

def isHeld : Ty K J S F → Bool
  | .classType _ | .interface _ | .function _ _ => true
  | _ => false

variable (P : Program K J S F)

def Program.partsOf : Ty K J S F → List (Ty K J S F)
  | .array element => [element]
  | .struct s => P.structFields s
  | _ => []

def Program.heldRounds : ℕ → List (Ty K J S F) → List (Ty K J S F) → List (Ty K J S F) → Option (List (Ty K J S F))
  | 0, _, _, _ => none
  | _ + 1, [], _, found => some found
  | fuel + 1, type :: pending, seen, found =>
    if underOptionals type ∈ seen then Program.heldRounds fuel pending seen found
    else if isHeld (underOptionals type) then
      Program.heldRounds fuel pending (seen ++ [underOptionals type]) (found ++ [underOptionals type])
    else Program.heldRounds fuel ((P.partsOf (underOptionals type)).reverse ++ pending) (seen ++ [underOptionals type]) found

def Program.heldTypes (fuel : ℕ) (type : Ty K J S F) : Option (List (Ty K J S F)) := P.heldRounds fuel [type] [] []

/-! ### The graph of holders -/

abbrev Graph (K J S F : Type) := List (Ty K J S F × Ty K J S F)

def Program.holdsEvery (fuel : ℕ) (graph : Graph K J S F) (holder type : Ty K J S F) : Option (Graph K J S F) := do
  let held ← P.heldTypes fuel type
  return graph ++ held.map fun h => (holder,h)

/-- The fields of an allocated class: what they own is held, and what a weak one is declared with is watched. -/
def Program.addField (fuel : ℕ) (classType : K) (facts : Graph K J S F × List (Ty K J S F)) (field : Field (Ty K J S F)) :
    Option (Graph K J S F × List (Ty K J S F)) :=
  if field.weak then some (facts.1,facts.2 ++ [underOptionals field.type])
  else (P.holdsEvery fuel facts.1 (.classType classType) field.type).map fun graph => (graph,facts.2)

def Program.ancestors : ℕ → K → Option (List K)
  | 0, _ => none
  | fuel + 1, k =>
    match P.baseClassOf k with
    | none => some []
    | some base => (Program.ancestors fuel base).map (base :: ·)

def Program.addClass (fuel : ℕ) (facts : Graph K J S F × List (Ty K J S F)) (classType : K) : Option (Graph K J S F × List (Ty K J S F)) := do
  let ancestors ← P.ancestors fuel classType
  let below := facts.1 ++ ancestors.map (fun k => (.classType k,.classType classType)) ++
    (P.conformances classType).map fun j => (.interface j,.classType classType)
  (P.fieldsOf classType).foldlM (P.addField fuel classType) (below,facts.2)

def addHolder (found : List (Ty K J S F) × List (Ty K J S F)) (holder : Ty K J S F) : List (Ty K J S F) × List (Ty K J S F) :=
  if holder ∈ found.2 then found else (holder :: found.1,found.2 ++ [holder])

def holderRounds (graph : Graph K J S F) : ℕ → List (Ty K J S F) × List (Ty K J S F) → Option (List (Ty K J S F))
  | 0, _ => none
  | _ + 1, ([],found) => some found
  | fuel + 1, (held :: pending,found) => holderRounds graph fuel (((graph.filter (·.2 = held)).map Prod.fst).foldl addHolder (pending,found))

def holdersOf (graph : Graph K J S F) (types : List (Ty K J S F)) : Option (List (Ty K J S F)) :=
  holderRounds graph (graph.length + types.length + 1) (types.foldl addHolder ([],[]))

/-! ### The facts of a program -/

def allocatedIn (code : List (Instruction K J S F)) : List K :=
  code.foldl (fun allocated instruction =>
    match instruction with
    | .classNew type => if type ∈ allocated then allocated else allocated ++ [type]
    | _ => allocated) []

def Program.addClosure (fuel : ℕ) (graph : Graph K J S F) : Instruction K J S F → Option (Graph K J S F)
  | .closureNew type captureTypes => captureTypes.foldlM (fun graph capture => P.holdsEvery fuel graph (underOptionals type) capture) graph
  | _ => some graph

def Program.closureGraph (fuel : ℕ) (code : List (Instruction K J S F)) : Option (Graph K J S F) := code.foldlM (P.addClosure fuel) []

def Program.isObserved (watched : List (Ty K J S F)) (ancestors : List K) (classType : K) : Bool :=
  (classType :: ancestors).any fun k => P.declaresDestructor k || .classType k ∈ watched

def Program.observedOf (fuel : ℕ) (watched : List (Ty K J S F)) : List K → Option (List K)
  | [] => some []
  | k :: rest => do
    let ancestors ← P.ancestors fuel k
    let more ← Program.observedOf fuel watched rest
    return if P.isObserved watched ancestors k then k :: more else more

def Program.analyze (fuel : ℕ) (code : List (Instruction K J S F)) : Option (List (Ty K J S F)) := do
  let graph ← P.closureGraph fuel code
  let facts ← (allocatedIn code).foldlM (P.addClass fuel) (graph,[])
  let observed ← P.observedOf fuel facts.2 (allocatedIn code)
  holdersOf facts.1 (observed.map .classType)

/-- Whether the destruction of a value of a type is observed, by the types found to hold one whose destruction is. -/
def Program.isObservable (fuel : ℕ) (observable : List (Ty K J S F)) (type : Ty K J S F) : Option Bool :=
  (P.heldTypes fuel type).map fun held => held.any (· ∈ observable)

/-! ### What a type holds -/

variable {P}

/-- A class, interface or function type that a value of a type holds, through optionals, elements and the fields of structs. -/
inductive Parts (P : Program K J S F) : Ty K J S F → Ty K J S F → Prop
  | held {type : Ty K J S F} : isHeld (underOptionals type) = true → Parts P type (underOptionals type)
  | part {type c h : Ty K J S F} : c ∈ P.partsOf (underOptionals type) → Parts P c h → Parts P type h

omit [DecidableEq K] [DecidableEq J] [DecidableEq S] [DecidableEq F] in
theorem partsOf_held {type : Ty K J S F} (h : isHeld type = true) : P.partsOf type = [] := by
  cases type with
  | classType | interface | function => rfl
  | plain | optional | array | struct => cases h

/-- Types without their optionals that hold the parts of each other. -/
def Spans (P : Program K J S F) (U : Finset (Ty K J S F)) : Prop := ∀ t ∈ U, ∀ c ∈ P.partsOf t, underOptionals c ∈ U

structure Held (P : Program K J S F) (type : Ty K J S F) (pending seen found : List (Ty K J S F)) : Prop where
  start : type ∈ pending ∨ underOptionals type ∈ seen
  sound : ∀ t ∈ pending, ∀ h, Parts P t h → Parts P type h
  only : ∀ h ∈ found, Parts P type h
  kept : ∀ t ∈ seen, isHeld t = true → t ∈ found
  closed : ∀ t ∈ seen, ∀ c ∈ P.partsOf t, c ∈ pending ∨ underOptionals c ∈ seen

variable {U : Finset (Ty K J S F)} {type : Ty K J S F} {pending seen found : List (Ty K J S F)} {fuel : ℕ}

theorem heldRounds_ok (hU : Spans P U) (hp : ∀ t ∈ pending, underOptionals t ∈ U) (h : Held P type pending seen found)
    (hfuel : Worklist.left P.partsOf U pending seen < fuel) :
    ∃ held, P.heldRounds fuel pending seen found = some held ∧ ∀ h, h ∈ held ↔ Parts P type h := by
  induction fuel generalizing pending seen found with
  | zero => omega
  | succ fuel ih =>
    cases pending with
    | nil =>
      refine ⟨found,rfl,fun h' => ⟨h.only h',fun hparts => ?_⟩⟩
      have hall : ∀ t, underOptionals t ∈ seen → Parts P t h' → h' ∈ found := by
        clear hparts
        intro t ht hparts
        induction hparts with
        | held hheld => exact h.kept _ ht hheld
        | part hc _ ih => exact ih ((h.closed _ ht _ hc).resolve_left (by simp))
      exact hall type (h.start.resolve_left (by simp)) hparts
    | cons t pending =>
      rw [Program.heldRounds]
      by_cases hseen : underOptionals t ∈ seen
      · rw [if_pos hseen]
        refine ih (fun x hx => hp x (by simp [hx])) ⟨?_,fun x hx => h.sound x (by simp [hx]),h.only,h.kept,fun x hx c hc => ?_⟩ ?_
        · rcases h.start with hs | hs
          · rcases List.mem_cons.1 hs with rfl | hs
            · exact .inr hseen
            · exact .inl hs
          · exact .inr hs
        · rcases h.closed x hx c hc with hs | hs
          · rcases List.mem_cons.1 hs with rfl | hs
            · exact .inr hseen
            · exact .inl hs
          · exact .inr hs
        · simp only [Worklist.left,List.length_cons] at hfuel ⊢
          omega
      · rw [if_neg hseen]
        have hroom := @Worklist.left_follow _ _ P.partsOf U pending seen (underOptionals t) (hp t (by simp)) hseen
        have hsame : Worklist.left P.partsOf U (underOptionals t :: pending) seen = Worklist.left P.partsOf U (t :: pending) seen := rfl
        have hmoved : ∀ x, x ∈ t :: pending ∨ underOptionals x ∈ seen → x ∈ pending ∨ underOptionals x ∈ seen ++ [underOptionals t] := by
          rintro x (hx | hx)
          · rcases List.mem_cons.1 hx with rfl | hx
            · exact .inr (by simp)
            · exact .inl hx
          · exact .inr (by simp [hx])
        by_cases hheld : isHeld (underOptionals t) = true
        · rw [if_pos hheld]
          rw [partsOf_held hheld,List.reverse_nil,List.nil_append] at hroom
          refine ih (fun x hx => hp x (by simp [hx])) ⟨hmoved type h.start,fun x hx => h.sound x (by simp [hx]),?_,?_,?_⟩ (by omega)
          · intro x hx
            rcases List.mem_append.1 hx with hx | hx
            · exact h.only x hx
            · rw [List.mem_singleton.1 hx]
              exact h.sound t (by simp) _ (.held hheld)
          · intro x hx hxheld
            rcases List.mem_append.1 hx with hx | hx
            · exact List.mem_append_left _ (h.kept x hx hxheld)
            · exact List.mem_append_right _ hx
          · intro x hx c hc
            rcases List.mem_append.1 hx with hx | hx
            · exact hmoved c (h.closed x hx c hc)
            · rw [List.mem_singleton.1 hx,partsOf_held hheld] at hc
              simp at hc
        · rw [if_neg hheld]
          refine ih ?_ ⟨?_,?_,h.only,?_,?_⟩ (by omega)
          · intro x hx
            rcases List.mem_append.1 hx with hx | hx
            · exact hU _ (hp t (by simp)) x (List.mem_reverse.1 hx)
            · exact hp x (by simp [hx])
          · exact (hmoved type h.start).imp_left (List.mem_append_right _)
          · intro x hx h' hparts
            rcases List.mem_append.1 hx with hx | hx
            · exact h.sound t (by simp) h' (.part (List.mem_reverse.1 hx) hparts)
            · exact h.sound x (by simp [hx]) h' hparts
          · intro x hx hxheld
            rcases List.mem_append.1 hx with hx | hx
            · exact h.kept x hx hxheld
            · rw [List.mem_singleton.1 hx] at hxheld
              exact absurd hxheld hheld
          · intro x hx c hc
            rcases List.mem_append.1 hx with hx | hx
            · exact (hmoved c (h.closed x hx c hc)).imp_left (List.mem_append_right _)
            · rw [List.mem_singleton.1 hx] at hc
              exact .inl (List.mem_append_left _ (List.mem_reverse.2 hc))

def roundsOf (P : Program K J S F) (U : Finset (Ty K J S F)) : ℕ := 2 + ∑ t ∈ U, (P.partsOf t).length

theorem heldTypes_ok (hU : Spans P U) (ht : underOptionals type ∈ U) (hfuel : roundsOf P U ≤ fuel) :
    ∃ held, P.heldTypes fuel type = some held ∧ ∀ h, h ∈ held ↔ Parts P type h := by
  refine heldRounds_ok hU (by simpa using ht) ⟨.inl (by simp),?_,by simp,by simp,by simp⟩ ?_
  · intro t ht h hparts
    rwa [List.mem_singleton.1 ht] at hparts
  · have hsum : ∑ t ∈ U.filter (· ∉ ([] : List (Ty K J S F))), (P.partsOf t).length = ∑ t ∈ U, (P.partsOf t).length := by simp
    simp only [Worklist.left,hsum,List.length_singleton]
    unfold roundsOf at hfuel
    omega

/-! ### What holds a type -/

variable {graph : Graph K J S F}

/-- One type holds another by an edge of the graph. -/
def Holds (graph : Graph K J S F) (holder held : Ty K J S F) : Prop := (holder,held) ∈ graph

theorem addHolder_fold (holders : List (Ty K J S F)) (s : List (Ty K J S F) × List (Ty K J S F)) :
    s.1 ⊆ (holders.foldl addHolder s).1 ∧ s.2 ⊆ (holders.foldl addHolder s).2 ∧ (∀ h ∈ holders, h ∈ (holders.foldl addHolder s).2) ∧
      (∀ x ∈ (holders.foldl addHolder s).2, x ∈ s.2 ∨ x ∈ (holders.foldl addHolder s).1) ∧
      ∀ V : Finset (Ty K J S F), (∀ h ∈ holders, h ∈ V) →
        (holders.foldl addHolder s).1.length + (V \ (holders.foldl addHolder s).2.toFinset).card ≤ s.1.length + (V \ s.2.toFinset).card := by
  induction holders generalizing s with
  | nil => exact ⟨List.Subset.refl _,List.Subset.refl _,by simp,fun x hx => .inl hx,fun _ _ => le_rfl⟩
  | cons h holders ih =>
    rw [List.foldl_cons]
    obtain ⟨h1,h2,h3,h4,h5⟩ := ih (addHolder s h)
    by_cases hin : h ∈ s.2
    · have hsame : addHolder s h = s := if_pos hin
      rw [hsame] at h1 h2 h3 h4 h5 ⊢
      exact ⟨h1,h2,List.forall_mem_cons.2 ⟨h2 hin,h3⟩,h4,fun V hV => h5 V fun x hx => hV x (by simp [hx])⟩
    · have hadd : addHolder s h = (h :: s.1,s.2 ++ [h]) := if_neg hin
      rw [hadd] at h1 h2 h3 h4 h5 ⊢
      refine ⟨fun x hx => h1 (by simp [hx]),fun x hx => h2 (by simp [hx]),List.forall_mem_cons.2 ⟨h2 (by simp),h3⟩,fun x hx => ?_,fun V hV => ?_⟩
      · rcases h4 x hx with hx | hx
        · rcases List.mem_append.1 hx with hx | hx
          · exact .inl hx
          · rw [List.mem_singleton.1 hx]
            exact .inr (h1 (by simp))
        · exact .inr hx
      · have hbound := h5 V fun x hx => hV x (by simp [hx])
        have hfewer : (V \ (s.2 ++ [h]).toFinset).card < (V \ s.2.toFinset).card := by
          refine Finset.card_lt_card (Finset.ssubset_iff_of_subset ?_ |>.2 ⟨h,?_,?_⟩)
          · intro x hx
            simp only [Finset.mem_sdiff,List.mem_toFinset,List.mem_append,not_or] at hx ⊢
            exact ⟨hx.1,hx.2.1⟩
          · simp [hV h (by simp),hin]
          · simp
        simp only [List.length_cons] at hbound
        omega

def holdersIn (graph : Graph K J S F) : Finset (Ty K J S F) := (graph.map Prod.fst).toFinset

theorem holderRounds_ok {s : List (Ty K J S F) × List (Ty K J S F)}
    (hclosed : ∀ x ∈ s.2, x ∈ s.1 ∨ ∀ h, Holds graph h x → h ∈ s.2)
    (hfuel : s.1.length + (holdersIn graph \ s.2.toFinset).card < fuel) :
    ∃ found, holderRounds graph fuel s = some found ∧ s.2 ⊆ found ∧ ∀ x ∈ found, ∀ h, Holds graph h x → h ∈ found := by
  induction fuel generalizing s with
  | zero => omega
  | succ fuel ih =>
    obtain ⟨pending,found⟩ := s
    cases pending with
    | nil => exact ⟨found,rfl,List.Subset.refl _,fun x hx => (hclosed x hx).resolve_left (by simp)⟩
    | cons held pending =>
      rw [holderRounds]
      obtain ⟨h1,h2,h3,h4,h5⟩ := addHolder_fold ((graph.filter (·.2 = held)).map Prod.fst) (pending,found)
      have hmem : ∀ h, h ∈ (graph.filter (·.2 = held)).map Prod.fst ↔ Holds graph h held := by
        intro h
        simp [Holds]
      have hbound := h5 (holdersIn graph) fun h hh => List.mem_toFinset.2 (List.mem_map.2 ⟨_,(hmem h).1 hh,rfl⟩)
      generalize ((graph.filter (·.2 = held)).map Prod.fst).foldl addHolder (pending,found) = next at h1 h2 h3 h4 hbound ⊢
      have hnext : ∀ x ∈ next.2, x ∈ next.1 ∨ ∀ h, Holds graph h x → h ∈ next.2 := by
        intro x hx
        rcases h4 x hx with hx | hx
        · rcases hclosed x hx with hx | hx
          · rcases List.mem_cons.1 hx with rfl | hx
            · exact .inr fun h hh => h3 h ((hmem h).2 hh)
            · exact .inl (h1 hx)
          · exact .inr fun h hh => h2 (hx h hh)
        · exact .inl hx
      simp only [List.length_cons] at hfuel hbound
      obtain ⟨final,hrun,hsub,hfinal⟩ := ih hnext (by omega)
      exact ⟨final,hrun,fun x hx => hsub (h2 hx),hfinal⟩

theorem holdersOf_ok (graph : Graph K J S F) (types : List (Ty K J S F)) :
    ∃ found, holdersOf graph types = some found ∧ ∀ x, ∀ t ∈ types, ReflTransGen (Holds graph) x t → x ∈ found := by
  obtain ⟨-,-,h3,h4,h5⟩ := addHolder_fold types (([],[]) : List (Ty K J S F) × List (Ty K J S F))
  have hbound := h5 (types.toFinset ∪ holdersIn graph) fun h hh => by simp [hh]
  have hsum : (types.toFinset ∪ holdersIn graph).card ≤ types.length + graph.length := by
    refine (Finset.card_union_le _ _).trans (Nat.add_le_add (List.toFinset_card_le types) ?_)
    have hlen := List.toFinset_card_le (graph.map Prod.fst)
    rwa [List.length_map] at hlen
  have hless : (holdersIn graph \ (types.foldl addHolder ([],[])).2.toFinset).card ≤
      ((types.toFinset ∪ holdersIn graph) \ (types.foldl addHolder ([],[])).2.toFinset).card :=
    Finset.card_le_card (Finset.sdiff_subset_sdiff Finset.subset_union_right (Finset.Subset.refl _))
  simp only [List.length_nil,List.toFinset_nil,Finset.sdiff_empty,Nat.zero_add] at hbound
  have hrounds : ∃ found, holdersOf graph types = some found ∧ (types.foldl addHolder ([],[])).2 ⊆ found ∧
      ∀ x ∈ found, ∀ h, Holds graph h x → h ∈ found :=
    holderRounds_ok (fun x hx => .inl ((h4 x hx).resolve_left (by simp))) (by omega)
  obtain ⟨found,hrun,hsub,hfound⟩ := hrounds
  refine ⟨found,hrun,fun x t ht hreach => ?_⟩
  induction hreach using ReflTransGen.head_induction_on with
  | refl => exact hsub (h3 t ht)
  | head hstep _ ih => exact hfound _ ih _ hstep

/-! ### The graph of a program -/

theorem foldlM_ok {α σ : Type*} {f : σ → α → Option σ} {R : σ → σ → Prop} {Q : α → σ → Prop} (hrefl : ∀ s, R s s)
    (htrans : ∀ s t u, R s t → R t u → R s u) (hkeep : ∀ a s t, Q a s → R s t → Q a t) (l : List α)
    (hstep : ∀ a ∈ l, ∀ s, ∃ t, f s a = some t ∧ R s t ∧ Q a t) (s : σ) : ∃ t, l.foldlM f s = some t ∧ R s t ∧ ∀ a ∈ l, Q a t := by
  induction l generalizing s with
  | nil => exact ⟨s,rfl,hrefl s,by simp⟩
  | cons a l ih =>
    obtain ⟨t,ht,hst,hat⟩ := hstep a (by simp) s
    obtain ⟨u,hu,htu,hall⟩ := ih (fun b hb => hstep b (by simp [hb])) t
    refine ⟨u,?_,htrans s t u hst htu,List.forall_mem_cons.2 ⟨hkeep a t u hat htu,hall⟩⟩
    rw [List.foldlM_cons,ht]
    exact hu

/-- A class at or below another. -/
def Below (P : Program K J S F) (k c : K) : Prop := ReflTransGen (fun a b => P.baseClassOf a = some b) k c

omit [DecidableEq K] [DecidableEq J] [DecidableEq S] [DecidableEq F] in
theorem mem_ancestors {k c : K} {l : List K} (h : P.ancestors fuel k = some l) (hb : Below P k c) : c = k ∨ c ∈ l := by
  induction fuel generalizing k l with
  | zero => cases h
  | succ fuel ih =>
    rw [Program.ancestors] at h
    rcases ReflTransGen.cases_head hb with rfl | ⟨base,hbase,hrest⟩
    · exact .inl rfl
    · rw [hbase] at h
      obtain ⟨rest,hr,rfl⟩ := Option.map_eq_some_iff.1 h
      rcases ih hr hrest with rfl | hc
      · exact .inr (by simp)
      · exact .inr (by simp [hc])

theorem holdsEvery_ok (hU : Spans P U) (hfuel : roundsOf P U ≤ fuel) (ht : underOptionals type ∈ U) (graph : Graph K J S F) (holder : Ty K J S F) :
    ∃ next, P.holdsEvery fuel graph holder type = some next ∧ graph ⊆ next ∧ ∀ h, Parts P type h → Holds next holder h := by
  obtain ⟨held,hrun,hheld⟩ := heldTypes_ok hU ht hfuel
  refine ⟨graph ++ held.map fun h => (holder,h),by simp [Program.holdsEvery,hrun],List.subset_append_left _ _,fun h hparts => ?_⟩
  exact List.mem_append_right _ (List.mem_map_of_mem ((hheld h).2 hparts))

structure Enough (P : Program K J S F) (code : List (Instruction K J S F)) (U : Finset (Ty K J S F)) (fuel : ℕ) : Prop where
  spans : Spans P U
  rounds : roundsOf P U ≤ fuel
  captures : ∀ type captureTypes, .closureNew type captureTypes ∈ code → ∀ capture ∈ captureTypes, underOptionals capture ∈ U
  fields : ∀ k, .classNew k ∈ code → ∀ field ∈ P.fieldsOf k, underOptionals field.type ∈ U
  bases : ∀ k, .classNew k ∈ code → ∃ l, P.ancestors fuel k = some l

variable {code : List (Instruction K J S F)}

theorem closureGraph_ok (hE : Enough P code U fuel) : ∃ graph, P.closureGraph fuel code = some graph ∧
    ∀ type captureTypes, .closureNew type captureTypes ∈ code → ∀ capture ∈ captureTypes, ∀ h, Parts P capture h →
      Holds graph (underOptionals type) h := by
  have hstep : ∀ i ∈ code, ∀ graph, ∃ next, P.addClosure fuel graph i = some next ∧ graph ⊆ next ∧
      ∀ type captureTypes, i = .closureNew type captureTypes → ∀ capture ∈ captureTypes, ∀ h, Parts P capture h →
        Holds next (underOptionals type) h := by
    intro i hi graph
    cases i with
    | classNew | other => exact ⟨graph,rfl,List.Subset.refl _,fun _ _ h => by cases h⟩
    | closureNew type captureTypes =>
      obtain ⟨next,hrun,hsub,hall⟩ := @foldlM_ok _ _ (fun graph capture => P.holdsEvery fuel graph (underOptionals type) capture)
        (fun s t => s ⊆ t) (fun capture next => ∀ h, Parts P capture h → Holds next (underOptionals type) h) (fun _ => List.Subset.refl _)
        (fun _ _ _ => List.Subset.trans) (fun _ _ _ hs hst h hparts => hst (hs h hparts)) captureTypes
        (fun capture hc s => holdsEvery_ok hE.spans hE.rounds (hE.captures _ _ hi capture hc) s _) graph
      refine ⟨next,hrun,hsub,?_⟩
      rintro _ _ ⟨⟩
      exact hall
  obtain ⟨graph,hrun,-,hall⟩ := @foldlM_ok _ _ (P.addClosure fuel) (fun s t => s ⊆ t)
    (fun i next => ∀ type captureTypes, i = .closureNew type captureTypes → ∀ capture ∈ captureTypes, ∀ h, Parts P capture h →
      Holds next (underOptionals type) h) (fun _ => List.Subset.refl _) (fun _ _ _ => List.Subset.trans)
    (fun _ _ _ hs hst type captureTypes hi capture hc h hparts => hst (hs type captureTypes hi capture hc h hparts)) code hstep []
  exact ⟨graph,hrun,fun type captureTypes hi => hall _ hi type captureTypes rfl⟩

/-- What is known of a field of an allocated class. -/
def FieldKnown (P : Program K J S F) (k : K) (field : Field (Ty K J S F)) (facts : Graph K J S F × List (Ty K J S F)) : Prop :=
  (field.weak = true → underOptionals field.type ∈ facts.2) ∧
    (field.weak = false → ∀ h, Parts P field.type h → Holds facts.1 (.classType k) h)

structure ClassKnown (P : Program K J S F) (k : K) (facts : Graph K J S F × List (Ty K J S F)) : Prop where
  below : ∀ c, Below P k c → c = k ∨ Holds facts.1 (.classType c) (.classType k)
  conforms : ∀ j ∈ P.conformances k, Holds facts.1 (.interface j) (.classType k)
  fields : ∀ field ∈ P.fieldsOf k, FieldKnown P k field facts

omit [DecidableEq K] [DecidableEq J] [DecidableEq S] [DecidableEq F] in
theorem FieldKnown.mono {k : K} {field : Field (Ty K J S F)} {s t : Graph K J S F × List (Ty K J S F)} (h : FieldKnown P k field s)
    (hst : s.1 ⊆ t.1 ∧ s.2 ⊆ t.2) : FieldKnown P k field t :=
  ⟨fun hw => hst.2 (h.1 hw),fun hw x hx => hst.1 (h.2 hw x hx)⟩

omit [DecidableEq K] [DecidableEq J] [DecidableEq S] [DecidableEq F] in
theorem ClassKnown.mono {k : K} {s t : Graph K J S F × List (Ty K J S F)} (h : ClassKnown P k s) (hst : s.1 ⊆ t.1 ∧ s.2 ⊆ t.2) :
    ClassKnown P k t :=
  ⟨fun c hc => (h.below c hc).imp_right fun hh => hst.1 hh,fun j hj => hst.1 (h.conforms j hj),fun field hf => (h.fields field hf).mono hst⟩

theorem addClass_ok (hE : Enough P code U fuel) {k : K} (hk : .classNew k ∈ code) (facts : Graph K J S F × List (Ty K J S F)) :
    ∃ next, P.addClass fuel facts k = some next ∧ (facts.1 ⊆ next.1 ∧ facts.2 ⊆ next.2) ∧ ClassKnown P k next := by
  obtain ⟨l,hl⟩ := hE.bases k hk
  have hfield : ∀ field ∈ P.fieldsOf k, ∀ facts, ∃ next, P.addField fuel k facts field = some next ∧
      (facts.1 ⊆ next.1 ∧ facts.2 ⊆ next.2) ∧ FieldKnown P k field next := by
    intro field hf facts
    unfold Program.addField
    cases hw : field.weak with
    | true =>
      exact ⟨_,rfl,⟨List.Subset.refl _,List.subset_append_left _ _⟩,⟨fun _ => by simp,fun h => by simp [hw] at h⟩⟩
    | false =>
      obtain ⟨graph,hrun,hsub,hheld⟩ := holdsEvery_ok hE.spans hE.rounds (hE.fields k hk field hf) facts.1 (.classType k)
      exact ⟨(graph,facts.2),by simp [hrun],⟨hsub,List.Subset.refl _⟩,⟨fun h => by simp [hw] at h,fun _ => hheld⟩⟩
  obtain ⟨next,hrun,hsub,hall⟩ := @foldlM_ok _ _ (P.addField fuel k) (fun s t => s.1 ⊆ t.1 ∧ s.2 ⊆ t.2) (FieldKnown P k)
    (fun _ => ⟨List.Subset.refl _,List.Subset.refl _⟩) (fun _ _ _ h h' => ⟨List.Subset.trans h.1 h'.1,List.Subset.trans h.2 h'.2⟩)
    (fun _ _ _ h hst => h.mono hst) (P.fieldsOf k) hfield
    (facts.1 ++ l.map (fun c => (.classType c,.classType k)) ++ (P.conformances k).map fun j => (.interface j,.classType k),facts.2)
  refine ⟨next,by rw [Program.addClass,hl]; exact hrun,⟨fun x hx => hsub.1 (by simp [hx]),hsub.2⟩,⟨fun c hc => ?_,fun j hj => ?_,hall⟩⟩
  · rcases mem_ancestors hl hc with rfl | hc
    · exact .inl rfl
    · exact .inr (hsub.1 (by simp [hc]))
  · exact hsub.1 (by simp [hj])

omit [DecidableEq J] [DecidableEq S] [DecidableEq F] in
theorem mem_allocatedIn {k : K} : k ∈ allocatedIn code ↔ .classNew k ∈ code := by
  have hfold : ∀ acc : List K, k ∈ code.foldl (fun allocated instruction =>
      match instruction with
      | .classNew type => if type ∈ allocated then allocated else allocated ++ [type]
      | _ => allocated) acc ↔ k ∈ acc ∨ .classNew k ∈ code := by
    induction code with
    | nil => simp
    | cons i code ih =>
      intro acc
      rw [List.foldl_cons,ih]
      cases i with
      | closureNew | other => simp
      | classNew k' =>
        by_cases hin : k' ∈ acc
        · simp only [if_pos hin,List.mem_cons,Instruction.classNew.injEq]
          grind
        · simp only [if_neg hin,List.mem_append,List.mem_cons,Instruction.classNew.injEq,List.not_mem_nil]
          grind
  simpa [allocatedIn] using hfold []

/-- A class that is watched or declares a destructor. -/
def Observed (P : Program K J S F) (watched : List (Ty K J S F)) (c : K) : Prop := P.declaresDestructor c = true ∨ .classType c ∈ watched

theorem observedOf_ok {watched : List (Ty K J S F)} {l : List K} (h : ∀ k ∈ l, ∃ bases, P.ancestors fuel k = some bases) :
    ∃ observed, P.observedOf fuel watched l = some observed ∧ ∀ k ∈ l, ∀ c, Below P k c → Observed P watched c → k ∈ observed := by
  induction l with
  | nil => exact ⟨[],rfl,by simp⟩
  | cons k l ih =>
    obtain ⟨bases,hbases⟩ := h k (by simp)
    obtain ⟨more,hmore,hall⟩ := ih fun x hx => h x (by simp [hx])
    refine ⟨if P.isObserved watched bases k then k :: more else more,by simp [Program.observedOf,hbases,hmore],?_⟩
    intro x hx c hbelow hc
    rcases List.mem_cons.1 hx with rfl | hx
    · have hobserved : P.isObserved watched bases x = true := by
        rw [Program.isObserved,List.any_eq_true]
        exact ⟨c,List.mem_cons.2 (mem_ancestors hbases hbelow),by simpa [Observed] using hc⟩
      simp [hobserved]
    · have hin := hall x hx c hbelow hc
      split
      · exact List.mem_cons_of_mem _ hin
      · exact hin

structure Analyzed (P : Program K J S F) (code : List (Instruction K J S F)) (graph : Graph K J S F) (watched observable : List (Ty K J S F)) :
    Prop where
  closures : ∀ type captureTypes, .closureNew type captureTypes ∈ code → ∀ capture ∈ captureTypes, ∀ h, Parts P capture h →
    Holds graph (underOptionals type) h
  classes : ∀ k, .classNew k ∈ code → ClassKnown P k (graph,watched)
  found : ∀ k, .classNew k ∈ code → ∀ c, Below P k c → Observed P watched c → ∀ x, ReflTransGen (Holds graph) x (.classType k) → x ∈ observable

theorem analyze_ok (hE : Enough P code U fuel) :
    ∃ observable graph watched, P.analyze fuel code = some observable ∧ Analyzed P code graph watched observable := by
  obtain ⟨closures,hclosures,hcaptured⟩ := closureGraph_ok hE
  have hmem : ∀ k ∈ allocatedIn code, .classNew k ∈ code := fun k => mem_allocatedIn.1
  obtain ⟨facts,hfacts,⟨hsub,-⟩,hknown⟩ := @foldlM_ok _ _ (P.addClass fuel) (fun s t => s.1 ⊆ t.1 ∧ s.2 ⊆ t.2) (ClassKnown P)
    (fun _ => ⟨List.Subset.refl _,List.Subset.refl _⟩) (fun _ _ _ h h' => ⟨List.Subset.trans h.1 h'.1,List.Subset.trans h.2 h'.2⟩)
    (fun _ _ _ h hst => h.mono hst) (allocatedIn code) (fun k hk facts => addClass_ok hE (hmem k hk) facts) (closures,[])
  obtain ⟨observed,hobserved,hall⟩ := @observedOf_ok _ _ _ _ _ _ _ _ P fuel facts.2 (allocatedIn code) fun k hk => hE.bases k (hmem k hk)
  obtain ⟨observable,hrun,hheld⟩ := holdersOf_ok facts.1 (observed.map .classType)
  refine ⟨observable,facts.1,facts.2,by simp [Program.analyze,hclosures,hfacts,hobserved,hrun],⟨?_,?_,?_⟩⟩
  · exact fun type captureTypes hi capture hc h hparts => hsub (hcaptured type captureTypes hi capture hc h hparts)
  · exact fun k hk => hknown k (mem_allocatedIn.2 hk)
  · exact fun k hk c hbelow hc x hreach => hheld x _ (List.mem_map_of_mem (hall k (mem_allocatedIn.2 hk) c hbelow hc)) hreach

/-! ### Values and objects -/

inductive Value
  | nothing
  | ref (id : ℕ)
  | struct (fields : List Value)

inductive Object (K J S F : Type)
  | classObject (k : K) (fields : List Value)
  | closure (signature : F) (shared : Bool) (captureTypes : List (Ty K J S F)) (captures : List Value)
  | array (element : Ty K J S F) (elements : List Value)

abbrev Heap (K J S F : Type) := ℕ → Option (Object K J S F)

/-- The values a type has. A `shared` function is one of the same type without it where `widened` allows it. -/
inductive Fits (P : Program K J S F) (heap : Heap K J S F) (widened : Bool) : Ty K J S F → Value → Prop
  | plain : Fits P heap widened .plain .nothing
  | null {t : Ty K J S F} : Fits P heap widened (.optional t) .nothing
  | present {t : Ty K J S F} {v : Value} : Fits P heap widened t v → Fits P heap widened (.optional t) v
  | classType {id : ℕ} {k c : K} {fields : List Value} : heap id = some (.classObject k fields) → Below P k c →
      Fits P heap widened (.classType c) (.ref id)
  | interface {id : ℕ} {k : K} {j : J} {fields : List Value} : heap id = some (.classObject k fields) → j ∈ P.conformances k →
      Fits P heap widened (.interface j) (.ref id)
  | function {id : ℕ} {f : F} {shared made : Bool} {ts : List (Ty K J S F)} {vs : List Value} : heap id = some (.closure f made ts vs) →
      made = shared ∨ widened = true ∧ made = true → Fits P heap widened (.function f shared) (.ref id)
  | array {id : ℕ} {element : Ty K J S F} {vs : List Value} : heap id = some (.array element vs) → Fits P heap widened (.array element) (.ref id)
  | struct {s : S} {vs : List Value} : (P.structFields s).length = vs.length →
      (∀ p ∈ (P.structFields s).zip vs, Fits P heap widened p.1 p.2) → Fits P heap widened (.struct s) (.struct vs)

/-- Values that fit the types they are kept at, one each. -/
def FitAll (P : Program K J S F) (heap : Heap K J S F) (widened : Bool) (types : List (Ty K J S F)) (vs : List Value) : Prop :=
  types.length = vs.length ∧ ∀ p ∈ types.zip vs, Fits P heap widened p.1 p.2

def Formed (P : Program K J S F) (code : List (Instruction K J S F)) (heap : Heap K J S F) (widened : Bool) : Object K J S F → Prop
  | .classObject k fields => .classNew k ∈ code ∧ FitAll P heap widened ((P.fieldsOf k).map Field.type) fields
  | .closure f shared ts vs => (∃ type, .closureNew type ts ∈ code ∧ underOptionals type = .function f shared) ∧ FitAll P heap widened ts vs
  | .array element vs => ∀ v ∈ vs, Fits P heap widened element v

def Rewritten : Object K J S F → Object K J S F → Prop
  | .classObject k _, .classObject k' _ => k = k'
  | .closure f shared ts _, .closure f' shared' ts' _ => f = f' ∧ shared = shared' ∧ ts = ts'
  | .array element _, .array element' _ => element = element'
  | _, _ => False

inductive Step (P : Program K J S F) (code : List (Instruction K J S F)) (widened : Bool) : Heap K J S F → Heap K J S F → Prop
  | make {heap : Heap K J S F} {id : ℕ} {o : Object K J S F} : heap id = none → Formed P code heap widened o →
      Step P code widened heap (Function.update heap id (some o))
  | write {heap : Heap K J S F} {id : ℕ} {o next : Object K J S F} : heap id = some o → Rewritten o next → Formed P code heap widened next →
      Step P code widened heap (Function.update heap id (some next))

inductive Owned (P : Program K J S F) (heap : Heap K J S F) : Value → ℕ → Prop
  | self {id : ℕ} : Owned P heap (.ref id) id
  | part {vs : List Value} {v : Value} {o : ℕ} : v ∈ vs → Owned P heap v o → Owned P heap (.struct vs) o
  | field {id o : ℕ} {k : K} {fields : List Value} {p : Field (Ty K J S F) × Value} : heap id = some (.classObject k fields) →
      p ∈ (P.fieldsOf k).zip fields → p.1.weak = false → Owned P heap p.2 o → Owned P heap (.ref id) o
  | capture {id o : ℕ} {f : F} {shared : Bool} {ts : List (Ty K J S F)} {vs : List Value} {v : Value} : heap id = some (.closure f shared ts vs) →
      v ∈ vs → Owned P heap v o → Owned P heap (.ref id) o
  | element {id o : ℕ} {element : Ty K J S F} {vs : List Value} {v : Value} : heap id = some (.array element vs) → v ∈ vs →
      Owned P heap v o → Owned P heap (.ref id) o

variable {heap heap' : Heap K J S F} {widened : Bool} {v : Value} {id : ℕ} {k : K}

section
omit [DecidableEq K] [DecidableEq J] [DecidableEq S] [DecidableEq F]

/-- Every object is there afterwards, with contents of its own. -/
def Later (heap heap' : Heap K J S F) : Prop := ∀ id o, heap id = some o → ∃ next, heap' id = some next ∧ Rewritten o next

theorem Rewritten.refl (o : Object K J S F) : Rewritten o o := by
  cases o with
  | classObject | closure | array => simp [Rewritten]

theorem Rewritten.classObject {fields : List Value} {next : Object K J S F} (h : Rewritten (.classObject k fields) next) :
    ∃ fields', next = .classObject k fields' := by
  cases next with
  | classObject k' fields' => exact ⟨fields',by rw [show k = k' from h]⟩
  | closure | array => exact h.elim

theorem Rewritten.closure {f : F} {shared : Bool} {ts : List (Ty K J S F)} {vs : List Value} {next : Object K J S F}
    (h : Rewritten (.closure f shared ts vs) next) : ∃ vs', next = .closure f shared ts vs' := by
  cases next with
  | closure f' shared' ts' vs' =>
    obtain ⟨rfl,rfl,rfl⟩ := h
    exact ⟨vs',rfl⟩
  | classObject | array => exact h.elim

theorem Rewritten.array {element : Ty K J S F} {vs : List Value} {next : Object K J S F} (h : Rewritten (.array element vs) next) :
    ∃ vs', next = .array element vs' := by
  cases next with
  | array element' vs' => exact ⟨vs',by rw [show element = element' from h]⟩
  | classObject | closure => exact h.elim

theorem Fits.later (h : Fits P heap widened type v) (hl : Later heap heap') : Fits P heap' widened type v := by
  induction h with
  | plain => exact .plain
  | null => exact .null
  | present _ ih => exact .present ih
  | classType hid hbelow =>
    obtain ⟨next,hnext,hr⟩ := hl _ _ hid
    obtain ⟨fields',rfl⟩ := hr.classObject
    exact .classType hnext hbelow
  | interface hid hj =>
    obtain ⟨next,hnext,hr⟩ := hl _ _ hid
    obtain ⟨fields',rfl⟩ := hr.classObject
    exact .interface hnext hj
  | function hid hshared =>
    obtain ⟨next,hnext,hr⟩ := hl _ _ hid
    obtain ⟨vs',rfl⟩ := hr.closure
    exact .function hnext hshared
  | array hid =>
    obtain ⟨next,hnext,hr⟩ := hl _ _ hid
    obtain ⟨vs',rfl⟩ := hr.array
    exact .array hnext
  | struct hlen _ ih => exact .struct hlen ih

theorem Formed.later {o : Object K J S F} (h : Formed P code heap widened o) (hl : Later heap heap') : Formed P code heap' widened o := by
  cases o with
  | classObject | closure => exact ⟨h.1,h.2.1,fun p hp => (h.2.2 p hp).later hl⟩
  | array => exact fun v hv => (h v hv).later hl

/-- All objects are ones the program makes. -/
def Typed (P : Program K J S F) (code : List (Instruction K J S F)) (widened : Bool) (heap : Heap K J S F) : Prop :=
  ∀ id o, heap id = some o → Formed P code heap widened o

theorem Step.later (h : Step P code widened heap heap') : Later heap heap' := by
  intro i o hi
  cases h with
  | @make id o' hid _ =>
    have hne : i ≠ id := fun he => by rw [he,hid] at hi; cases hi
    exact ⟨o,by rw [Function.update_of_ne hne,hi],.refl o⟩
  | @write id o' next hid hr _ =>
    by_cases he : i = id
    · subst he
      rw [hid] at hi
      cases hi
      exact ⟨next,Function.update_self ..,hr⟩
    · exact ⟨o,by rw [Function.update_of_ne he,hi],.refl o⟩

theorem Step.typed (h : Step P code widened heap heap') (ht : Typed P code widened heap) : Typed P code widened heap' := by
  have hl := h.later
  have hput : ∀ id (new : Object K J S F), heap' = Function.update heap id (some new) → Formed P code heap widened new → Typed P code widened heap' := by
    rintro id new rfl hnew i o hi
    by_cases he : i = id
    · subst he
      rw [Function.update_self] at hi
      cases hi
      exact hnew.later hl
    · rw [Function.update_of_ne he] at hi
      exact (ht i o hi).later hl
  cases h with
  | make _ hnew => exact hput _ _ rfl hnew
  | write _ _ hnew => exact hput _ _ rfl hnew

/-- The heaps a run of the program can reach. -/
def Run (P : Program K J S F) (code : List (Instruction K J S F)) (widened : Bool) (heap : Heap K J S F) : Prop :=
  ReflTransGen (Step P code widened) (fun _ => none) heap

theorem Run.typed (h : Run P code widened heap) : Typed P code widened heap := by
  induction h with
  | refl => exact fun _ _ h => by cases h
  | tail _ hstep ih => exact hstep.typed ih

end

/-! ### What a value holds its type leads to -/

section
omit [DecidableEq K] [DecidableEq J] [DecidableEq S] [DecidableEq F]

theorem Fits.of_classObject {fields : List Value} (h : Fits P heap widened type (.ref id)) (hid : heap id = some (.classObject k fields)) :
    (∃ c, underOptionals type = .classType c ∧ Below P k c) ∨ ∃ j ∈ P.conformances k, underOptionals type = .interface j := by
  generalize hv : Value.ref id = v at h
  induction h with
  | plain | null | struct => cases hv
  | present _ ih => exact ih hv
  | classType hid' hbelow =>
    cases hv
    rw [hid] at hid'
    cases hid'
    exact .inl ⟨_,rfl,hbelow⟩
  | interface hid' hj =>
    cases hv
    rw [hid] at hid'
    cases hid'
    exact .inr ⟨_,hj,rfl⟩
  | function hid' | array hid' =>
    cases hv
    rw [hid] at hid'
    cases hid'

theorem Fits.of_closure {f : F} {shared : Bool} {ts : List (Ty K J S F)} {vs : List Value} (h : Fits P heap false type (.ref id))
    (hid : heap id = some (.closure f shared ts vs)) : underOptionals type = .function f shared := by
  generalize hv : Value.ref id = v at h
  induction h with
  | plain | null | struct => cases hv
  | present _ ih => exact ih hv
  | function hid' hshared =>
    cases hv
    rw [hid] at hid'
    cases hid'
    rw [hshared.resolve_right (by simp)]
    rfl
  | classType hid' | interface hid' | array hid' =>
    cases hv
    rw [hid] at hid'
    cases hid'

theorem Fits.of_array {element : Ty K J S F} {vs : List Value} (h : Fits P heap widened type (.ref id))
    (hid : heap id = some (.array element vs)) : underOptionals type = .array element := by
  generalize hv : Value.ref id = v at h
  induction h with
  | plain | null | struct => cases hv
  | present _ ih => exact ih hv
  | array hid' =>
    cases hv
    rw [hid] at hid'
    cases hid'
    rfl
  | classType hid' | interface hid' | function hid' =>
    cases hv
    rw [hid] at hid'
    cases hid'

theorem Fits.of_struct {vs : List Value} (h : Fits P heap widened type (.struct vs)) :
    ∃ s, underOptionals type = .struct s ∧ FitAll P heap widened (P.structFields s) vs := by
  generalize hv : Value.struct vs = v at h
  induction h with
  | plain | null | classType | interface | function | array => cases hv
  | present _ ih => exact ih hv
  | struct hlen hfit =>
    cases hv
    exact ⟨_,rfl,hlen,hfit⟩

theorem FitAll.at {types : List (Ty K J S F)} {vs : List Value} (h : FitAll P heap widened types vs) (hv : v ∈ vs) :
    ∃ t ∈ types, Fits P heap widened t v := by
  obtain ⟨i,hi,rfl⟩ := List.mem_iff_getElem.1 hv
  have hi' : i < types.length := by rw [h.1]; exact hi
  exact ⟨types[i],List.getElem_mem hi',h.2 (types[i],vs[i]) (List.mem_iff_getElem.2 ⟨i,by simp [hi,hi'],by simp⟩)⟩

theorem Parts.of_held {t : Ty K J S F} (h : underOptionals type = t) (ht : isHeld t = true) : Parts P type t := by
  subst h
  exact .held ht

theorem Parts.of_part {t c : Ty K J S F} (h : underOptionals type = t) (hc : c ∈ P.partsOf t) {x : Ty K J S F} (hx : Parts P c x) :
    Parts P type x := by
  subst h
  exact .part hc hx

variable {watched observable : List (Ty K J S F)}

theorem Analyzed.leads (hA : Analyzed P code graph watched observable) {fields : List Value} (h : Fits P heap widened type (.ref id))
    (hid : heap id = some (.classObject k fields)) (hk : .classNew k ∈ code) :
    ∃ x, Parts P type x ∧ ReflTransGen (Holds graph) x (.classType k) := by
  rcases h.of_classObject hid with ⟨c,ht,hbelow⟩ | ⟨j,hj,ht⟩
  · refine ⟨_,.of_held ht rfl,?_⟩
    rcases (hA.classes k hk).below c hbelow with rfl | hholds
    · exact .refl
    · exact .single hholds
  · exact ⟨_,.of_held ht rfl,.single ((hA.classes k hk).conforms j hj)⟩

/-- A type leads to the class of every object that can die with one of its values. By induction on how the value owns it. -/
theorem Analyzed.owned (hA : Analyzed P code graph watched observable) (ht : Typed P code false heap) {o : ℕ} (ho : Owned P heap v o)
    {fields : List Value} (hid : heap o = some (.classObject k fields)) (hfit : Fits P heap false type v) :
    ∃ x, Parts P type x ∧ ReflTransGen (Holds graph) x (.classType k) := by
  induction ho generalizing type with
  | self => exact hA.leads hfit hid (ht _ _ hid).1
  | part hv _ ih =>
    obtain ⟨s,hs,hall⟩ := hfit.of_struct
    obtain ⟨t,hmem,hv⟩ := hall.at hv
    obtain ⟨x,hx,hreach⟩ := ih hid hv
    exact ⟨x,.of_part hs hmem hx,hreach⟩
  | @field id o k' fields' p hid' hp hweak _ ih =>
    obtain ⟨hnew,hall⟩ := ht _ _ hid'
    have hpfit : Fits P heap false p.1.type p.2 := hall.2 (p.1.type,p.2) (by rw [List.zip_map_left]; exact List.mem_map_of_mem hp)
    obtain ⟨x,hx,hreach⟩ := ih hid hpfit
    obtain ⟨y,hy,hto⟩ := hA.leads hfit hid' hnew
    have hheld : Holds graph (.classType k') x := ((hA.classes k' hnew).fields p.1 (List.of_mem_zip hp).1).2 hweak x hx
    exact ⟨y,hy,(hto.tail hheld).trans hreach⟩
  | capture hid' hv _ ih =>
    obtain ⟨⟨made,hmade,hunder⟩,hall⟩ := ht _ _ hid'
    obtain ⟨t,hmem,hv⟩ := hall.at hv
    obtain ⟨x,hx,hreach⟩ := ih hid hv
    have hheld := hA.closures made _ hmade t hmem x hx
    rw [hunder] at hheld
    exact ⟨_,.of_held (hfit.of_closure hid') rfl,.head hheld hreach⟩
  | element hid' hv _ ih =>
    obtain ⟨x,hx,hreach⟩ := ih hid (ht _ _ hid' _ hv)
    exact ⟨x,.of_part (hfit.of_array hid') (by simp [Program.partsOf]) hx,hreach⟩

end

/-! ### Types whose destruction is not observed -/

/-- A weak field of a class the program makes is declared with this one. -/
def Watched (P : Program K J S F) (code : List (Instruction K J S F)) (c : K) : Prop :=
  ∃ k, .classNew k ∈ code ∧ ∃ field ∈ P.fieldsOf k, field.weak = true ∧ underOptionals field.type = .classType c

/-- Destroying an object of a class runs no destructor and ends no life that is watched. -/
def Unobserved (P : Program K J S F) (code : List (Instruction K J S F)) (k : K) : Prop :=
  ∀ c, Below P k c → P.declaresDestructor c = false ∧ ¬ Watched P code c

/-- No object that can die with a value of the type is observed, in a heap. -/
def Quiet (P : Program K J S F) (code : List (Instruction K J S F)) (heap : Heap K J S F) (widened : Bool) (type : Ty K J S F) : Prop :=
  ∀ v, Fits P heap widened type v → ∀ o, Owned P heap v o → ∀ k fields, heap o = some (.classObject k fields) → Unobserved P code k

/-- The facts about a program end and hold in the heaps its runs reach. -/
def SoundFor (P : Program K J S F) (code : List (Instruction K J S F)) (U : Finset (Ty K J S F)) (fuel : ℕ) (widened : Bool) : Prop :=
  ∃ observable, P.analyze fuel code = some observable ∧ ∀ type, underOptionals type ∈ U → ∃ answer, P.isObservable fuel observable type = some answer ∧
    (answer = false → ∀ heap, Run P code widened heap → Quiet P code heap widened type)

/-- The facts hold in every run that puts no `shared` function value where the type without it is declared. -/
theorem isObservable_sound (hE : Enough P code U fuel) : SoundFor P code U fuel false := by
  obtain ⟨observable,graph,watched,hrun,hA⟩ := analyze_ok hE
  refine ⟨observable,hrun,fun type htype => ?_⟩
  obtain ⟨held,hheld,hparts⟩ := heldTypes_ok hE.spans htype hE.rounds
  refine ⟨held.any (· ∈ observable),by simp [Program.isObservable,hheld],?_⟩
  intro hfalse heap hreached v hfit o ho k fields hid
  have htyped := hreached.typed
  have hnew : .classNew k ∈ code := (htyped o _ hid).1
  obtain ⟨x,hx,hreach⟩ := hA.owned htyped ho hid hfit
  have hnone : ∀ c, Below P k c → ¬ Observed P watched c := by
    intro c hbelow hc
    have hin := hA.found k hnew c hbelow hc x hreach
    rw [List.any_eq_false] at hfalse
    exact hfalse x ((hparts x).2 hx) (by simpa using hin)
  intro c hbelow
  constructor
  · have hnot := fun h => hnone c hbelow (.inl h)
    simpa using hnot
  · rintro ⟨k',hnew',field,hfield,hweak,hunder⟩
    have hwatched := ((hA.classes k' hnew').fields field hfield).1 hweak
    rw [hunder] at hwatched
    exact hnone c hbelow (.inr hwatched)

def guards : Program Unit Empty Unit Unit where
  baseClassOf _ := none
  conformances _ := []
  fieldsOf _ := []
  structFields _ := [.classType (),.array (.struct ())]
  declaresDestructor _ := true

def guardCode : List (Instruction Unit Empty Unit Unit) := [.classNew (),.closureNew (.function () true) [.classType ()]]

def guardTypes : Finset (Ty Unit Empty Unit Unit) :=
  {.classType (),.struct (),.array (.struct ()),.function () true,.function () false}

theorem guards_enough : Enough guards guardCode guardTypes 6 where
  spans := by unfold Spans; decide
  rounds := by decide
  captures := by
    intro type captureTypes h
    simp only [guardCode,List.mem_cons,List.not_mem_nil,or_false,reduceCtorEq,false_or,Instruction.closureNew.injEq] at h
    obtain ⟨rfl,rfl⟩ := h
    decide
  fields _ _ := by simp [guards]
  bases _ _ := ⟨[],rfl⟩

/-- The facts hold of the struct and of the `shared` function type, whose values are destroyed observably. -/
theorem guards_sound : SoundFor guards guardCode guardTypes 6 false ∧
    ∃ observable, guards.analyze 6 guardCode = some observable ∧ guards.isObservable 6 observable (.struct ()) = some true ∧
      guards.isObservable 6 observable (.optional (.function () true)) = some true :=
  ⟨isObservable_sound guards_enough,_,rfl,rfl,rfl⟩

def guardMade : Heap Unit Empty Unit Unit := Function.update (fun _ => none) 0 (some (.classObject () []))

def guardCaptured : Heap Unit Empty Unit Unit := Function.update guardMade 1 (some (.closure () true [.classType ()] [.ref 0]))

theorem run_guardCaptured : Run guards guardCode true guardCaptured := by
  have hguard : Formed guards guardCode (fun _ => none) true (.classObject () []) := ⟨by simp [guardCode],by simp [FitAll,guards]⟩
  have hclosure : Formed guards guardCode guardMade true (.closure () true [.classType ()] [.ref 0]) := by
    refine ⟨⟨.function () true,by simp [guardCode],rfl⟩,rfl,?_⟩
    intro p hp
    rw [List.mem_singleton.1 hp]
    exact .classType rfl .refl
  have hfirst : Step guards guardCode true (fun _ => none) guardMade := .make rfl hguard
  have hsecond : Step guards guardCode true guardMade guardCaptured := .make rfl hclosure
  exact (ReflTransGen.single hfirst).tail hsecond

/-- The `shared` function is a value of the type without `shared`, nothing is known to be held there, and the object it captures dies with it. -/
theorem not_isObservable_sound : Enough guards guardCode guardTypes 6 ∧ ¬ SoundFor guards guardCode guardTypes 6 true := by
  refine ⟨guards_enough,?_⟩
  rintro ⟨observable,hrun,h⟩
  cases hrun
  obtain ⟨answer,hanswer,hquiet⟩ := h (.function () false) (by decide)
  have hno : answer = false := (Option.some.inj hanswer).symm
  have hfit : Fits guards guardCaptured true (.function () false) (.ref 1) := .function rfl (.inr ⟨rfl,rfl⟩)
  have howned : Owned guards guardCaptured (.ref 1) 0 := .capture rfl (List.mem_singleton.2 rfl) .self
  have hunobserved : Unobserved guards guardCode () := hquiet hno guardCaptured run_guardCaptured _ hfit 0 howned () [] rfl
  have hsilent : guards.declaresDestructor () = false := (hunobserved () .refl).1
  exact absurd hsilent (by decide)

end Ens.Destruction
