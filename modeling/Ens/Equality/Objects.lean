import Ens.Equality.Declarations

/-! # Two objects

Whatever a static type lets the lowering leave out, two objects it compares as equal hash alike, provided the declarations of each class
do. The comparison goes both ways and on from one object to the next wherever the declarations do.
-/
namespace Ens.Equality
open Dispatch

variable {K J S : Type} [DecidableEq K] [DecidableEq J] [DecidableEq S]

namespace Heap

/-- A class of objects has a body for the `hash` it runs. -/
def Live (H : Heap K S) (P : Program K J S) : Prop :=
  ∀ x q, P.declaredBehavior (H.runtimeClass x) .hash = some q → P.classes.isConcrete q = true

/-- The `equals` of a class on two of its objects. -/
def Equals (H : Heap K S) (P : Program K J S) (x y : ℕ) : Prop :=
  H.runtimeClass x = H.runtimeClass y ∧ ∃ p, P.declaredBehavior (H.runtimeClass x) .equals = some p ∧ H.equals p x y = true

structure PairsAgree (H : Heap K S) (P : Program K J S) : Prop where
  classes : ∀ x y q, H.Equals P x y → P.declaredBehavior (H.runtimeClass x) .hash = some q → H.hash q x = H.hash q y
  structs : ∀ s a b, P.declaresOwnPair s = true → H.structEquals s a b = true → H.structHash s a = H.structHash s b

structure PairsSymmetric (H : Heap K S) (P : Program K J S) : Prop where
  classes : ∀ x y, H.Equals P x y → H.Equals P y x
  structs : ∀ s a b, P.declaresOwnPair s = true → H.structEquals s a b = true → H.structEquals s b a = true

structure PairsTransitive (H : Heap K S) (P : Program K J S) : Prop where
  classes : ∀ x y z, H.Equals P x y → H.Equals P y z → H.Equals P x z
  structs : ∀ s a b c, P.declaresOwnPair s = true → H.structEquals s a b = true → H.structEquals s b c = true → H.structEquals s a c = true

end Heap

variable {P : Program K J S} {H : Heap K S} {t : Ty K J S} {a b c : Value} {x y : ℕ} {p : Place K} {k : K}

theorem compareIdentity_eq (h : compareIdentity a b = true) : a = b := by
  cases a <;> cases b <;> first | rfl | cases h | skip
  exact congrArg _ (of_decide_eq_true h)

theorem compareIdentity_symm (h : compareIdentity a b = true) : compareIdentity b a = true := by
  obtain rfl := compareIdentity_eq h
  exact h

def Instance (P : Program K J S) (H : Heap K S) (t : Ty K J S) : Value → Prop
  | .object x => ∀ k, t.classOf = some k → k ∈ P.classes.chain (H.runtimeClass x)
  | _ => True

/-- One reference twice, or two objects of a class the comparison asks that are equal by its `equals`. -/
def Joined (P : Program K J S) (H : Heap K S) (asks : K → Prop) (a b : Value) : Prop :=
  compareIdentity a b = true ∨ ∃ x y, a = .object x ∧ b = .object y ∧ asks (H.runtimeClass x) ∧ H.Equals P x y

omit [DecidableEq J] [DecidableEq S] in
theorem Joined.symm {asks : K → Prop} (hu : H.PairsSymmetric P) (h : Joined P H asks a b) : Joined P H asks b a := by
  rcases h with h | ⟨x,y,rfl,rfl,hask,he⟩
  · exact .inl (compareIdentity_symm h)
  · exact .inr ⟨y,x,rfl,rfl,he.1 ▸ hask,hu.classes x y he⟩

omit [DecidableEq J] [DecidableEq S] in
theorem Joined.trans {asks : K → Prop} (hu : H.PairsTransitive P) (h : Joined P H asks a b) (h' : Joined P H asks b c) :
    Joined P H asks a c := by
  rcases h with h | ⟨x,y,rfl,rfl,hask,he⟩
  · obtain rfl := compareIdentity_eq h
    exact h'
  · rcases h' with h' | ⟨y',z,hy,rfl,-,he'⟩
    · obtain rfl := compareIdentity_eq h'
      exact .inr ⟨x,y,rfl,rfl,hask,he⟩
    · obtain rfl : y = y' := Value.object.inj hy
      exact .inr ⟨x,z,rfl,rfl,hask,hu.classes x y z he he'⟩

omit [DecidableEq J] [DecidableEq S] in
theorem joined_object {asks : K → Prop} : Joined P H asks (.object x) (.object y) ↔
    x = y ∨ asks (H.runtimeClass x) ∧ H.Equals P x y := by
  constructor
  · rintro (h | ⟨x',y',hx,hy,hask,he⟩)
    · exact .inl (of_decide_eq_true h)
    · obtain rfl := Value.object.inj hx
      obtain rfl := Value.object.inj hy
      exact .inr ⟨hask,he⟩
  · rintro (rfl | ⟨hask,he⟩)
    · exact .inl (decide_eq_true rfl)
    · exact .inr ⟨x,y,rfl,rfl,hask,he⟩

/-- Whether a descriptor has an `equals` to call. -/
def Slotted (P : Program K J S) (k : K) : Prop := ∃ p, P.behaviorSlot k .equals = some p

theorem dynamicEquals_iff : dynamicEquals P H a b = true ↔ Joined P H (Slotted P) a b := by
  unfold dynamicEquals
  split
  case h_2 hno => exact ⟨.inl,fun h => h.elim id fun ⟨x,y,hx,hy,_⟩ => absurd hy (hno x y hx)⟩
  case h_1 x y =>
    rw [joined_object,Bool.or_eq_true,Bool.and_eq_true,decide_eq_true_eq,decide_eq_true_eq]
    refine or_congr_right ⟨fun ⟨hclass,hslot⟩ => ?_,fun ⟨⟨p,hslot⟩,hclass,q,hq,he⟩ => ⟨hclass,?_⟩⟩
    · obtain ⟨p,hp,he⟩ := (Option.any_eq_true _ _).mp hslot
      exact ⟨⟨p,hp⟩,hclass,p,(Option.filter_eq_some_iff.mp hp).1,he⟩
    · obtain rfl : p = q := Option.some.inj ((Option.filter_eq_some_iff.mp hslot).1.symm.trans hq)
      rw [hslot]
      exact he

/-- Where only one class of objects is possible the vtable holds what its descriptor does. -/
theorem compareContents_iff (ha : P.Accepted) (hk : P.Kept) (ho : P.isOnlyRuntimeType t = true) (hc : t.classOf = some k)
    (hp : P.declaredBehavior k .equals = some p) (hx : Instance P H t a) (hy : Instance P H t b) :
    compareContents P H p a b = true ↔ Joined P H (fun _ => True) a b := by
  unfold compareContents
  split
  case h_2 hno => exact ⟨.inl,fun h => h.elim id fun ⟨x,y,hx,hy,_⟩ => absurd hy (hno x y hx)⟩
  case h_1 x y =>
    have hx := ha.only_runtimeClass ho hc (hx k hc)
    have hy := ha.only_runtimeClass ho hc (hy k hc)
    rw [joined_object,hx,hk k p hp,Option.any_some,Bool.or_eq_true,decide_eq_true_eq]
    refine or_congr_right ⟨fun he => ⟨trivial,hx.trans hy.symm,p,hx ▸ hp,he⟩,fun ⟨_,_,q,hq,he⟩ => ?_⟩
    obtain rfl : p = q := Option.some.inj (hp.symm.trans (hx ▸ hq))
    exact he

/-- The classes a comparison at a static type asks for their `equals`. -/
def Asks (P : Program K J S) (t : Ty K J S) (k : K) : Prop :=
  P.subtreeDeclares t .equals = true ∧ (P.isOnlyRuntimeType t = true ∨ Slotted P k)

omit [DecidableEq J] [DecidableEq S] in
theorem only_class (ho : P.isOnlyRuntimeType t = true) : ∃ k, t.classOf = some k := by
  cases hc : t.classOf with
  | some k => exact ⟨k,rfl⟩
  | none =>
    rw [Program.isOnlyRuntimeType,hc] at ho
    split at ho <;> cases ho

theorem compareReferences_iff (ha : P.Accepted) (hk : P.Kept) (hx : Instance P H t a) (hy : Instance P H t b) :
    compareReferences P H t a b = true ↔ Joined P H (Asks P t) a b := by
  unfold compareReferences
  split_ifs with hs ho
  · obtain ⟨k,hc⟩ := only_class ho
    rw [hc,Option.bind_some]
    cases hp : P.declaredBehavior k .equals with
    | some p =>
      refine (compareContents_iff ha hk ho hc hp hx hy).trans (or_congr_right ?_)
      exact ⟨fun ⟨x,y,hx,hy,_,he⟩ => ⟨x,y,hx,hy,⟨hs,.inl ho⟩,he⟩,fun ⟨x,y,hx,hy,_,he⟩ => ⟨x,y,hx,hy,trivial,he⟩⟩
    | none =>
      refine ⟨.inl,fun h => h.elim id ?_⟩
      rintro ⟨x,y,rfl,rfl,-,-,p,hp',-⟩
      rw [ha.only_runtimeClass ho hc (hx k hc),hp] at hp'
      cases hp'
  · refine dynamicEquals_iff.trans (or_congr_right ?_)
    exact ⟨fun ⟨x,y,hx,hy,hask,he⟩ => ⟨x,y,hx,hy,⟨hs,.inr hask⟩,he⟩,
      fun ⟨x,y,hx,hy,hask,he⟩ => ⟨x,y,hx,hy,hask.2.resolve_left ho,he⟩⟩
  · exact ⟨.inl,fun h => h.elim id fun ⟨_,_,_,_,hask,_⟩ => absurd hask.1 hs⟩

/-! ### Hashes -/

theorem dynamicHash_object (ha : P.Accepted) (hl : H.Live P) {q : Place K} (hq : P.declaredBehavior (H.runtimeClass x) .hash = some q) :
    dynamicHash P H (.object x) = H.hash q x := by
  rw [dynamicHash,ha.behaviorSlot_hash hq (hl x q hq)]
  rfl

theorem hashOfReference_object (ha : P.Accepted) (hl : H.Live P) (hs : P.subtreeDeclares t .equals = true) (hx : Instance P H t (.object x))
    {q : Place K} (hq : P.declaredBehavior (H.runtimeClass x) .hash = some q) : hashOfReference P H t (.object x) = H.hash q x := by
  rw [hashOfReference,if_pos ((ha.subtreeDeclares_paired t).symm.trans hs)]
  split_ifs with ho
  · obtain ⟨k,hc⟩ := only_class ho
    have hone := ha.only_runtimeClass ho hc (hx k hc)
    rw [hone] at hq
    rw [hc,Option.bind_some,hq]
    show callDeclaredHash P H q (.object x) = H.hash q x
    rw [callDeclaredHash,hone,ha.dispatched_hash hq (hl x q (hone ▸ hq))]
    rfl
  · exact dynamicHash_object ha hl hq

theorem Joined.hashes {asks : K → Prop} (ha : P.Accepted) (h : Joined P H asks a b) : a = b ∨ ∃ x y q, a = .object x ∧ b = .object y ∧
    asks (H.runtimeClass x) ∧ H.Equals P x y ∧ P.declaredBehavior (H.runtimeClass x) .hash = some q ∧
      P.declaredBehavior (H.runtimeClass y) .hash = some q := by
  rcases h with h | ⟨x,y,rfl,rfl,hask,he⟩
  · exact .inl (compareIdentity_eq h)
  · obtain ⟨hclass,p,hp,-⟩ := id he
    obtain ⟨q,hq⟩ := ha.hash_of_equals hp
    exact .inr ⟨x,y,q,rfl,rfl,hask,he,hq,hclass ▸ hq⟩

theorem dynamicHash_eq (ha : P.Accepted) (hl : H.Live P) (hu : H.PairsAgree P) (h : dynamicEquals P H a b = true) :
    dynamicHash P H a = dynamicHash P H b := by
  rcases (dynamicEquals_iff.mp h).hashes ha with rfl | ⟨x,y,q,rfl,rfl,-,he,hqx,hqy⟩
  · rfl
  · rw [dynamicHash_object ha hl hqx,dynamicHash_object ha hl hqy]
    exact hu.classes x y q he hqx

theorem hashOfReference_eq (ha : P.Accepted) (hk : P.Kept) (hl : H.Live P) (hu : H.PairsAgree P) (hx : Instance P H t a)
    (hy : Instance P H t b) (h : compareReferences P H t a b = true) : hashOfReference P H t a = hashOfReference P H t b := by
  rcases ((compareReferences_iff ha hk hx hy).mp h).hashes ha with rfl | ⟨x,y,q,rfl,rfl,hask,he,hqx,hqy⟩
  · rfl
  · rw [hashOfReference_object ha hl hask.1 hx hqx,hashOfReference_object ha hl hask.1 hy hqy]
    exact hu.classes x y q he hqx

end Ens.Equality
