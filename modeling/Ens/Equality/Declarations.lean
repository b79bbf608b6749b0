import Ens.Dispatch.OneAbi
import Ens.Equality.Lowering

/-! # The declarations of one class

A class that has one of the pair has both, and neither descriptor slot of its objects is empty where the other holds a content
comparison. A type with one class of objects is read off its declarations, and runs what the descriptor of such an object holds.
-/
namespace Ens.Equality
open Dispatch

variable {K J S : Type} [DecidableEq K] [DecidableEq J] [DecidableEq S]

namespace Program

/-- What the checker holds the declarations of a program to. A class has a method of a signature once, has both of the pair or neither,
counting what it inherits, and no `hash` throws. An instantiation has the base its declaration has. -/
structure Accepted (P : Program K J S) : Prop where
  distinct : ∀ p q, p.1 = q.1 → P.classes.isMethod p = true → Hierarchy.SameAt P.classes p q → p = q
  base_declared : ∀ k, (P.classes.baseOf (P.classes.declared k)).map P.classes.declared = (P.classes.baseOf k).map P.classes.declared
  paired_hash : ∀ k, (P.ownBehavior .hash k).isSome → ∃ c ∈ P.classes.chain k, (P.ownBehavior .equals c).isSome
  paired_equals : ∀ k, (P.ownBehavior .equals k).isSome → ∃ c ∈ P.classes.chain k, (P.ownBehavior .hash c).isSome
  quiet : ∀ p m, P.classes.methodAt p = some m → m.name = Behavior.hash.name → m.declaresThrows = false
  quiet_required : ∀ j, ∀ m ∈ P.classes.interfaceMethodsOf j, m.name = Behavior.hash.name → m.declaresThrows = false

/-- No class overrides an `equals` it inherits without declaring one for its own type. -/
def Kept (P : Program K J S) : Prop := ∀ k p, P.declaredBehavior k .equals = some p → P.dispatched k p = some p

variable {P : Program K J S} {k c : K} {b : Behavior} {p q : Place K} {t : Ty K J S} {slot : ℕ}

omit [DecidableEq J] [DecidableEq S] in
theorem ownBehavior_some (hp : P.ownBehavior b k = some p) :
    p.1 = k ∧ ∃ m, P.classes.methodAt p = some m ∧ P.declaresBehavior k b m = true := Hierarchy.ownWhere_some hp

omit [DecidableEq J] [DecidableEq S] in
theorem declaredBehavior_isSome : (P.declaredBehavior k b).isSome = true ↔ ∃ c ∈ P.classes.chain k, (P.ownBehavior b c).isSome = true :=
  List.findSome?_isSome_iff

omit [DecidableEq J] [DecidableEq S] in
theorem declaredBehavior_some (hp : P.declaredBehavior k b = some p) : p.1 ∈ P.classes.chain k ∧
    ∃ m, P.classes.methodAt p = some m ∧ P.declaresBehavior p.1 b m = true := by
  obtain ⟨c,hc,ho⟩ := List.exists_of_findSome?_eq_some hp
  obtain ⟨rfl,hm⟩ := ownBehavior_some ho
  exact ⟨hc,hm⟩

omit [DecidableEq K] [DecidableEq J] [DecidableEq S] in
theorem mem_chain_trans (hc : c ∈ P.classes.chain k) {d : K} (hd : d ∈ P.classes.chain c) : d ∈ P.classes.chain k := by
  obtain ⟨below,hs⟩ := Hierarchy.chain_split hc
  rw [hs]
  exact List.mem_append_right _ hd

theorem Accepted.paired (ha : P.Accepted) (k : K) : (P.declaredBehavior k .equals).isSome = (P.declaredBehavior k .hash).isSome := by
  refine Bool.eq_iff_iff.mpr ⟨fun h => ?_,fun h => ?_⟩
  · obtain ⟨c,hc,ho⟩ := declaredBehavior_isSome.mp h
    obtain ⟨d,hd,ho⟩ := ha.paired_equals c ho
    exact declaredBehavior_isSome.mpr ⟨d,mem_chain_trans hc hd,ho⟩
  · obtain ⟨c,hc,ho⟩ := declaredBehavior_isSome.mp h
    obtain ⟨d,hd,ho⟩ := ha.paired_hash c ho
    exact declaredBehavior_isSome.mpr ⟨d,mem_chain_trans hc hd,ho⟩

theorem Accepted.hash_of_equals (ha : P.Accepted) (hp : P.declaredBehavior k .equals = some p) :
    ∃ q, P.declaredBehavior k .hash = some q := by
  have hs := ha.paired k
  rw [hp] at hs
  exact Option.isSome_iff_exists.mp hs.symm

theorem Accepted.subtreeDeclares_paired (ha : P.Accepted) (t : Ty K J S) : P.subtreeDeclares t .equals = P.subtreeDeclares t .hash := by
  simp only [subtreeDeclares,someImplementerDeclares,ha.paired]

/-! ### The error slot of `hash` -/

def nameAt (P : Program K J S) (p : Place K) : Option MethodName := (P.classes.methodAt p).map Method.name

omit [DecidableEq K] [DecidableEq J] [DecidableEq S] in
theorem nameAt_eq {m : Method (Ty K J S)} (hm : P.classes.methodAt p = some m) : P.nameAt p = some m.name := by rw [nameAt,hm]; rfl

omit [DecidableEq K] [DecidableEq J] [DecidableEq S] in
theorem nameAt_declarationOf (p : Place K) : P.nameAt (P.classes.declarationOf p) = P.nameAt p := by
  have he := congrArg (Option.map Method.name) (Hierarchy.erased_declarationOf (h := P.classes) p)
  rw [Option.map_map,Option.map_map] at he
  exact he

theorem sameSignature_name {m m' : Method (Ty K J S)} (h : m.sameSignature m' = true) : m'.name = m.name := by
  simp only [Method.sameSignature,Bool.and_eq_true,decide_eq_true_eq] at h
  exact h.1

theorem nameAt_root (owner : K) (p : Place K) : P.nameAt (P.classes.rootDeclarationOf owner p) = P.nameAt p := by
  rw [Hierarchy.rootDeclarationOf]
  cases hm : P.classes.methodAt p with
  | none => rfl
  | some m =>
    rw [Option.elim_some]
    rcases Hierarchy.topmost_eq_or (Hierarchy.declares m) (P.classes.bases owner) p with h | ⟨-,m',hm',hd⟩
    · rw [h]
    · rw [Hierarchy.declares,Bool.and_eq_true] at hd
      rw [nameAt_eq hm',nameAt_eq hm,sameSignature_name hd.2]

theorem Accepted.not_marked (ha : P.Accepted) (hn : P.nameAt p = some Behavior.hash.name) : P.classes.marked p = false := by
  obtain ⟨m,hm,hname⟩ := Option.map_eq_some_iff.mp hn
  rw [Hierarchy.marked,hm]
  exact ha.quiet p m hm hname

theorem Accepted.not_carrying (ha : P.Accepted) (hn : P.nameAt p = some Behavior.hash.name) : p ∉ P.classes.carryingFamilies := by
  intro hin
  obtain ⟨c,-,hin⟩ := List.mem_flatMap.mp hin
  obtain ⟨j,-,hin⟩ := List.mem_flatMap.mp hin
  obtain ⟨candidate,hmem,hin⟩ := List.mem_filterMap.mp hin
  split_ifs at hin with hthrows
  obtain ⟨provided,hfind,rfl⟩ := Option.map_eq_some_iff.mp hin
  obtain ⟨-,m,hm,hd⟩ := Hierarchy.nearest_some hfind
  rw [Hierarchy.declares,Bool.and_eq_true] at hd
  rw [nameAt_declarationOf,nameAt_root,nameAt_eq hm,sameSignature_name hd.2] at hn
  rw [ha.quiet_required j candidate hmem (Option.some.inj hn)] at hthrows
  exact Bool.false_ne_true hthrows

theorem Accepted.abiThrows_hash (ha : P.Accepted) (hn : P.nameAt p = some Behavior.hash.name) : P.classes.abiThrows p = false := by
  have hd : P.nameAt (P.classes.declarationOf p) = some Behavior.hash.name := (nameAt_declarationOf p).trans hn
  obtain ⟨m,hm,hname⟩ := Option.map_eq_some_iff.mp hd
  have hplain : (m.isConstructor || m.isDestructor) = false := by simp [Method.isConstructor,Method.isDestructor,hname,Behavior.name]
  have hroot := (nameAt_root (P.classes.declarationOf p).1 (P.classes.declarationOf p)).trans hd
  have hmarked := ha.not_marked hroot
  have hfamily := ha.not_carrying ((nameAt_declarationOf _).trans hroot)
  rw [Hierarchy.abiThrows,Hierarchy.carries,hm,Option.any_some,hplain,hmarked]
  simpa using hfamily

/-! ### What the vtable holds for `hash` -/

omit [DecidableEq J] [DecidableEq S] in
theorem declaresHash_iff {m : Method (Ty K J S)} : P.declaresBehavior k .hash m = true ↔
    m.name = Behavior.hash.name ∧ m.declaresThrows = false ∧ m.parameterTypes = [] := by
  unfold declaresBehavior
  cases m.parameterTypes <;> simp

omit [DecidableEq J] [DecidableEq S] in
/-- The nearest declaration is at or below every class of the chain that has one. -/
theorem declaredBehavior_low (hp : P.declaredBehavior k b = some p) (hc : c ∈ P.classes.chain k) (ho : (P.ownBehavior b c).isSome = true) :
    c ∈ P.classes.chain p.1 := by
  obtain ⟨above,level,below,hsplit,hfound,hnone⟩ := List.findSome?_eq_some_iff.mp hp
  obtain ⟨rfl,-⟩ := ownBehavior_some hfound
  rw [← Hierarchy.chain_suffix hsplit]
  rw [hsplit] at hc
  refine (List.mem_append.mp hc).resolve_left fun habove => ?_
  rw [hnone c habove] at ho
  exact Bool.false_ne_true ho

omit [DecidableEq K] [DecidableEq J] [DecidableEq S] in
theorem chain_antisymm (hc : c ∈ P.classes.chain k) (hk : k ∈ P.classes.chain c) : c = k := by
  rcases List.mem_cons.mp hc with rfl | hc
  · rfl
  · rcases List.mem_cons.mp hk with rfl | hk
    · rfl
    · exact absurd (Hierarchy.rank_lt_of_mem_bases hc) (Nat.lt_asymm (Hierarchy.rank_lt_of_mem_bases hk))

theorem Accepted.slotHolder_hash (ha : P.Accepted) (hq : P.declaredBehavior k .hash = some q) (hslot : P.classes.vtableSlotOf q = some slot)
    {r : Place K} (hr : P.classes.slotHolder k slot = some r) : r = q := by
  obtain ⟨hchain,m,hm,hd⟩ := declaredBehavior_some hq
  obtain ⟨hrchain,hrslot,hrmethod,hlow⟩ := Hierarchy.slotHolder_some hr
  have hmethod := Hierarchy.isMethod_of_slot hslot
  have hsame : Hierarchy.SameAt P.classes q r := Hierarchy.sameAt_of_slot ((Hierarchy.slotIn_chain hchain).trans hslot)
    ((Hierarchy.slotIn_chain hrchain).trans hrslot)
  have hown : (P.ownBehavior .hash r.1).isSome = true := by
    obtain ⟨m',mr,hm',hmr,hs⟩ := hsame
    obtain rfl : m = m' := Option.some.inj (hm.symm.trans hm')
    obtain ⟨hname,-,hnil⟩ := declaresHash_iff.mp hd
    simp only [Method.sameSignature,Bool.and_eq_true,decide_eq_true_eq] at hs
    have hrname : mr.name = Behavior.hash.name := hs.1.trans hname
    have hdr : P.declaresBehavior r.1 .hash mr = true := declaresHash_iff.mpr ⟨hrname,ha.quiet r mr hmr hrname,hs.2.trans hnil⟩
    exact Option.isSome_iff_exists.mpr (Hierarchy.ownWhere_isSome hmr hdr)
  have hone := chain_antisymm (declaredBehavior_low hq hrchain hown) (hlow q hmethod hslot hchain)
  exact (ha.distinct q r hone.symm hmethod hsame).symm

theorem Accepted.dispatched_hash (ha : P.Accepted) (hq : P.declaredBehavior k .hash = some q) (hc : P.classes.isConcrete q = true) :
    P.dispatched k q = some q := by
  rw [dispatched]
  cases hslot : P.classes.vtableSlotOf q with
  | none => rfl
  | some slot =>
    obtain ⟨hchain,-⟩ := declaredBehavior_some hq
    cases hr : P.classes.slotHolder k slot with
    | some r =>
      obtain rfl := ha.slotHolder_hash hq hslot hr
      exact Option.filter_eq_some_iff.mpr ⟨hr,hc⟩
    | none =>
      obtain ⟨m,hm,hmethod⟩ := (Option.any_eq_true _ _).mp (Hierarchy.isMethod_of_slot hslot)
      have hno := List.find?_eq_none.mp (Option.map_eq_none_iff.mp (List.findSome?_eq_none_iff.mp hr q.1 hchain)) (m,q.2)
        (List.mk_mem_zipIdx_iff_getElem?.mpr hm)
      exact absurd (by rw [Bool.and_eq_true]; exact ⟨hmethod,decide_eq_true hslot⟩) hno

theorem Accepted.behaviorSlot_hash (ha : P.Accepted) (hq : P.declaredBehavior k .hash = some q) (hc : P.classes.isConcrete q = true) :
    P.behaviorSlot k .hash = some q := by
  obtain ⟨-,m,hm,hd⟩ := declaredBehavior_some hq
  have hquiet := ha.abiThrows_hash ((nameAt_eq hm).trans (congrArg some (declaresHash_iff.mp hd).1))
  exact Option.filter_eq_some_iff.mpr ⟨hq,by rw [hc,hquiet]; rfl⟩

/-! ### A type with one class of objects -/

omit [DecidableEq K] [DecidableEq J] [DecidableEq S] in
theorem exists_subclass (hc : k ∈ P.classes.bases c) : ∃ d, P.classes.baseOf d = some k := by
  induction hr : P.classes.rank c using Nat.strong_induction_on generalizing c with
  | _ n ih =>
    cases hb : P.classes.baseOf c with
    | none =>
      rw [Hierarchy.bases_of_root hb] at hc
      cases hc
    | some d =>
      rw [Hierarchy.bases_of_base hb] at hc
      rcases List.mem_cons.mp hc with rfl | hc
      · exact ⟨c,hb⟩
      · exact ih _ (hr ▸ P.classes.rank_base hb) hc rfl

omit [DecidableEq J] [DecidableEq S] in
/-- Every class the program declares below a class is one of its objects may be. -/
theorem runtimeTypesOf_closed (k : K) : k ∈ P.runtimeTypesOf k ∧
    ∀ c ∈ P.runtimeTypesOf k, ∀ d ∈ P.directSubclasses c, d ∈ P.runtimeTypesOf k := by
  have hroom : Worklist.left P.directSubclasses (insert k P.classes.classes.toFinset) [k] [] ≤
      1 + ∑ c ∈ insert k P.classes.classes.toFinset, (P.directSubclasses c).length := by simp [Worklist.left]
  obtain ⟨hin,hclosed⟩ := Worklist.visit_closed
    (fun c _ d hd => Finset.mem_insert_of_mem (List.mem_toFinset.mpr (List.mem_filter.mp hd).1))
    (fun c hc => (List.mem_singleton.mp hc) ▸ Finset.mem_insert_self _ _) (fun c hc => absurd hc List.not_mem_nil) hroom
  exact ⟨hin k (List.mem_singleton_self k),hclosed⟩

theorem Accepted.only_runtimeClass (ha : P.Accepted) (ho : P.isOnlyRuntimeType t = true) (hk : t.classOf = some k)
    (hc : k ∈ P.classes.chain c) : c = k := by
  rcases List.mem_cons.mp hc with rfl | hc
  · rfl
  exfalso
  obtain ⟨d,hd⟩ := exists_subclass hc
  have hsub : P.classes.declared d ∈ P.directSubclasses k := by
    rw [directSubclasses,List.mem_filter,decide_eq_true_eq,ha.base_declared,hd]
    exact ⟨P.classes.declared_mem d,rfl⟩
  obtain ⟨hin,hclosed⟩ := runtimeTypesOf_closed (P := P) k
  have hone : (P.runtimeTypesOf k).length = 1 := by
    rw [isOnlyRuntimeType,hk] at ho
    split at ho
    · cases ho
    · exact of_decide_eq_true ho
  obtain ⟨z,hz⟩ := List.length_eq_one_iff.mp hone
  have hboth : k = P.classes.declared d :=
    (List.mem_singleton.mp (hz ▸ hin)).trans (List.mem_singleton.mp (hz ▸ hclosed k hin _ hsub)).symm
  have hrank := P.classes.rank_base hd
  rw [hboth,P.classes.rank_declared] at hrank
  exact lt_irrefl _ hrank

end Program
end Ens.Equality
