import Mathlib.Data.List.Basic

/-! # Throw sets

The error types a callable raises, with whether some type that did not resolve is among them and whether one is certain to be raised.
-/
namespace Ens.Throws
variable {D T : Type}

/-- What the types of a program are. A scope is the member under whose extra bounds a question is asked. A use of a lambda can give
the list of what it throws. -/
structure Types (D T : Type) where
  isError : T → Bool
  errorType : T
  errorType_isError : isError errorType = true
  isClassLike : T → Bool
  param : T → Option (D × ℕ)
  pending : T → Option D
  listMembers : T → Option (List T)
  errorBase : Option T
  isSubclassOf : T → T → Bool
  alwaysSubclass : Option D → T → T → Bool
  mightOverlap : Option D → T → T → Bool
  substitute : T → D → List T → T
  pendingUse : D → Option (List T)

variable (h : Types D T)

/-- A type a set can have as a member. -/
def Types.Proper (t : T) : Prop := h.isError t = false ∧ (h.isClassLike t = true ∨ (h.param t).isSome = true)

structure ThrowSet where
  memberTypes : List T
  holdsUnresolved : Bool
  holdsCertainUnresolved : Bool
  proper : ∀ t ∈ memberTypes, h.Proper t
  implied : holdsCertainUnresolved = true → holdsUnresolved = true

inductive Fact (T : Type)
  | member (t : T)
  | unresolved
  | certain

namespace ThrowSet
variable {h} (s : ThrowSet h)

def empty : ThrowSet h := ⟨[],false,false,nofun,nofun⟩

def addUnresolved : ThrowSet h × Bool :=
  if s.holdsUnresolved then (s,false) else ({ s with holdsUnresolved := true, implied := fun _ => rfl },true)

def addCertainUnresolved : ThrowSet h × Bool :=
  let grown := s.addUnresolved
  if s.holdsCertainUnresolved then grown
  else (⟨s.memberTypes,true,true,s.proper,fun _ => rfl⟩,true)

def addUnresolvedOf (other : ThrowSet h) : ThrowSet h × Bool :=
  if other.holdsCertainUnresolved then s.addCertainUnresolved
  else if other.holdsUnresolved then s.addUnresolved
  else (s,false)

section
variable [DecidableEq T]

def add (candidate : T) : ThrowSet h × Bool :=
  if he : h.isError candidate = true then s.addUnresolved
  else if hp : h.isClassLike candidate = true ∨ (h.param candidate).isSome = true then
    if candidate ∈ s.memberTypes then (s,false)
    else ({ s with
      memberTypes := s.memberTypes ++ [candidate]
      proper := fun t ht => (List.mem_append.mp ht).elim (s.proper t) fun ht =>
        List.mem_singleton.mp ht ▸ ⟨Bool.eq_false_iff.mpr he,hp⟩ },true)
  else (s,false)

def addThrown (candidate : T) : ThrowSet h :=
  match h.errorBase with
  | none => (s.add candidate).1
  | some base =>
    if (h.param candidate).isSome then (s.add candidate).1
    else if h.isClassLike candidate && h.isSubclassOf candidate base then (s.add candidate).1
    else s.addUnresolved.1

def addMembers : ThrowSet h × Bool → List T → ThrowSet h × Bool :=
  List.foldl fun (s,grew) t => ((s.add t).1,grew || (s.add t).2)

def addAll (other : ThrowSet h) : ThrowSet h × Bool := addMembers (s.addUnresolvedOf other) other.memberTypes

end

def raisesNothing : Bool := s.memberTypes.isEmpty && !s.holdsUnresolved

/-! ### What a set holds -/

def Holds : Fact T → Prop
  | .member t => t ∈ s.memberTypes
  | .unresolved => s.holdsUnresolved = true
  | .certain => s.holdsCertainUnresolved = true

variable {s} {other : ThrowSet h} {f : Fact T} {t : T}

theorem not_holds_empty : ¬(empty : ThrowSet h).Holds f := by
  cases f with
  | member t => exact List.not_mem_nil
  | unresolved => exact Bool.false_ne_true
  | certain => exact Bool.false_ne_true

theorem raisesNothing_iff : s.raisesNothing = true ↔ ∀ f, ¬s.Holds f := by
  rw [raisesNothing,Bool.and_eq_true,List.isEmpty_iff,Bool.not_eq_true']
  constructor
  · rintro ⟨hm,hu⟩ (t | _ | _)
    · exact fun ht => List.not_mem_nil (hm ▸ ht : t ∈ [])
    · exact fun hf => Bool.false_ne_true (hu.symm.trans hf)
    · exact fun hf => Bool.false_ne_true (hu.symm.trans (s.implied hf))
  · intro hall
    refine ⟨List.eq_nil_iff_forall_not_mem.mpr fun t => hall (.member t),Bool.eq_false_iff.mpr (hall .unresolved)⟩

structure Adds (s : ThrowSet h) (added : Fact T → Prop) (result : ThrowSet h × Bool) : Prop where
  holds : ∀ f, result.1.Holds f ↔ s.Holds f ∨ added f
  same : result.2 = false → result.1 = s
  grew : result.2 = true → ∃ f, added f ∧ ¬s.Holds f

theorem Adds.nothing (s : ThrowSet h) : Adds s (fun _ => False) (s,false) := ⟨fun _ => (or_false _).symm.to_iff,fun _ => rfl,nofun⟩

theorem Adds.congr {added added' : Fact T → Prop} {result : ThrowSet h × Bool} (ha : Adds s added result) (h : ∀ f, added f ↔ added' f) :
    Adds s added' result := by
  obtain rfl : added = added' := funext fun f => propext (h f)
  exact ha

theorem addUnresolved_adds (s : ThrowSet h) : Adds s (· = .unresolved) s.addUnresolved := by
  rw [addUnresolved]
  split_ifs with hu
  · refine ⟨fun f => ⟨.inl,fun hf => hf.elim id fun he => he ▸ hu⟩,fun _ => rfl,nofun⟩
  · refine ⟨fun f => ?_,nofun,fun _ => ⟨.unresolved,rfl,hu⟩⟩
    cases f <;> simp [Holds]

theorem addCertainUnresolved_adds (s : ThrowSet h) : Adds s (fun f => f = .unresolved ∨ f = .certain) s.addCertainUnresolved := by
  rw [addCertainUnresolved]
  split_ifs with hc
  · rw [addUnresolved,if_pos (s.implied hc)]
    refine ⟨fun f => ⟨.inl,fun hf => hf.elim id fun he => ?_⟩,fun _ => rfl,nofun⟩
    rcases he with rfl | rfl
    · exact s.implied hc
    · exact hc
  · refine ⟨fun f => ?_,nofun,fun _ => ⟨.certain,.inr rfl,hc⟩⟩
    cases f <;> simp [Holds]

def UnresolvedOf (other : Fact T → Prop) : Fact T → Prop
  | .member _ => False
  | .unresolved => other .unresolved
  | .certain => other .certain

theorem addUnresolvedOf_adds (s other : ThrowSet h) : Adds s (UnresolvedOf other.Holds) (s.addUnresolvedOf other) := by
  rw [addUnresolvedOf]
  split_ifs with hc hu
  · refine (addCertainUnresolved_adds s).congr fun f => ?_
    have hu : other.holdsUnresolved = true := other.implied hc
    cases f <;> simp [UnresolvedOf,Holds,hc,hu]
  · refine (addUnresolved_adds s).congr fun f => ?_
    cases f <;> simp [UnresolvedOf,Holds,hc,hu]
  · refine (Adds.nothing s).congr fun f => ?_
    cases f <;> simp [UnresolvedOf,Holds,hc,hu]

def heldAs (h : Types D T) (t : T) : Fact T → Prop
  | .member u => u = t ∧ h.Proper t
  | .unresolved => h.isError t = true
  | .certain => False

def thrownAs (h : Types D T) (t : T) : Fact T → Prop := fun f =>
  match h.errorBase with
  | none => heldAs h t f
  | some base =>
    if (h.param t).isSome || h.isClassLike t && h.isSubclassOf t base then heldAs h t f else f = .unresolved

theorem Adds.trans {s t : ThrowSet h} {b : Bool} {added added' : Fact T → Prop} {result : ThrowSet h × Bool} (ha : Adds s added (t,b))
    (ha' : Adds t added' result) : Adds s (fun f => added f ∨ added' f) (result.1,b || result.2) := by
  refine ⟨fun f => by rw [ha'.holds,ha.holds,or_assoc],fun hb => ?_,fun hb => ?_⟩
  · obtain ⟨hb,hr⟩ := Bool.or_eq_false_iff.mp hb
    exact (ha'.same hr).trans (ha.same hb)
  · cases b with
    | true =>
      obtain ⟨f,hf,hn⟩ := ha.grew rfl
      exact ⟨f,.inl hf,hn⟩
    | false =>
      obtain ⟨f,hf,hn⟩ := ha'.grew (by simpa using hb)
      have hts : t = s := ha.same rfl
      exact ⟨f,.inr hf,hts ▸ hn⟩

variable [DecidableEq T]

theorem add_adds (s : ThrowSet h) (t : T) : Adds s (heldAs h t) (s.add t) := by
  rw [add]
  split_ifs with he hp hm
  · refine (addUnresolved_adds s).congr fun f => ?_
    cases f <;> simp [heldAs,Types.Proper,he]
  · refine ⟨fun f => ⟨.inl,fun hf => hf.elim id fun hf => ?_⟩,fun _ => rfl,nofun⟩
    cases f with
    | member u => exact hf.1 ▸ hm
    | unresolved => exact absurd hf he
    | certain => exact hf.elim
  · have hproper : h.Proper t := ⟨Bool.eq_false_iff.mpr he,hp⟩
    refine ⟨fun f => ?_,nofun,fun _ => ⟨.member t,⟨rfl,hproper⟩,hm⟩⟩
    cases f with
    | member u => simp [Holds,heldAs,hproper]
    | unresolved => simp [Holds,heldAs,he]
    | certain => simp [Holds,heldAs]
  · refine (Adds.nothing s).congr fun f => ?_
    cases f <;> simp [heldAs,Types.Proper,he,hp]

theorem addMembers_adds {s t : ThrowSet h} {b : Bool} {added : Fact T → Prop} (ha : Adds s added (t,b)) (members : List T) :
    Adds s (fun f => added f ∨ ∃ u ∈ members, heldAs h u f) (addMembers (t,b) members) := by
  induction members generalizing t b added with
  | nil => exact ha.congr fun f => by simp
  | cons u members ih =>
    have hone : Adds s (fun f => added f ∨ heldAs h u f) ((t.add u).1,b || (t.add u).2) := ha.trans (add_adds t u)
    exact (ih hone).congr fun f => by simp [or_assoc]

theorem addAll_adds (s other : ThrowSet h) : Adds s other.Holds (s.addAll other) := by
  refine (addMembers_adds (addUnresolvedOf_adds s other) other.memberTypes).congr fun f => ?_
  cases f with
  | member t =>
    constructor
    · rintro (hf | ⟨u,hu,rfl,-⟩)
      · exact hf.elim
      · exact hu
    · exact fun ht => .inr ⟨t,ht,rfl,other.proper t ht⟩
  | unresolved =>
    refine ⟨fun hf => hf.elim id ?_,.inl⟩
    rintro ⟨u,hu,he⟩
    exact absurd ((other.proper u hu).1.symm.trans he) Bool.false_ne_true
  | certain => exact ⟨fun hf => hf.elim id fun ⟨_,_,hu⟩ => hu.elim,.inl⟩

theorem holds_addThrown {s : ThrowSet h} {t : T} {f : Fact T} : (s.addThrown t).Holds f ↔ s.Holds f ∨ thrownAs h t f := by
  rw [addThrown,thrownAs]
  cases h.errorBase with
  | none => exact (add_adds s t).holds f
  | some base =>
    dsimp only
    cases hp : (h.param t).isSome with
    | true => exact (add_adds s t).holds f
    | false =>
      cases hc : h.isClassLike t && h.isSubclassOf t base with
      | true => exact (add_adds s t).holds f
      | false => exact (addUnresolved_adds s).holds f

end ThrowSet
end Ens.Throws
