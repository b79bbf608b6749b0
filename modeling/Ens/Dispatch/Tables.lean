import Ens.Dispatch.Hierarchy

/-! # Dispatch tables

A class method gets a slot only when it is abstract or overridden, or overrides. A class starts its table where the one of its base
ends, and an override takes the slot of the method it overrides.
-/
set_option linter.all false
namespace Ens.Dispatch.Hierarchy
variable {K J T : Type} [DecidableEq K] [DecidableEq T] (h : Hierarchy K J T)

def overriddenBy (m candidate : Method T) : Bool :=
  !(candidate.isConstructor || candidate.isDestructor || candidate.isPrivate) && m.sameSignature candidate

def declaringBaseMethod (k : K) (m : Method T) : Option (Place K) := h.nearest (overriddenBy m) (h.bases k)

/-- The declarations that need a slot: every abstract method and both ends of every override. -/
def markForcedSlots (k : K) : List (Place K) :=
  (h.methodsOf k).zipIdx.flatMap fun (m,i) =>
    if m.isConstructor || m.isDestructor then []
    else (if m.isAbstract then [h.declarationOf (k,i)] else []) ++
      if m.isOverride then (h.declaringBaseMethod k m).elim [] fun p => [h.declarationOf (k,i),h.declarationOf p] else []

def forcedSlots : List (Place K) := h.classes.flatMap h.markForcedSlots

def needsSlot (k : K) (m : Method T) (i : ℕ) : Bool :=
  !(m.isConstructor || m.isDestructor) && decide (h.declarationOf (k,i) ∈ h.forcedSlots)

def assignMethods (slotOf : Place K → Option ℕ) (k : K) : ℕ → List (Method T) → ℕ → List (Option ℕ) × ℕ
  | _, [], size => ([],size)
  | i, m :: methods, size =>
    if h.needsSlot k m i then
      match (h.declaringBaseMethod k m).bind slotOf with
      | some slot => (some slot :: (assignMethods slotOf k (i + 1) methods size).1,(assignMethods slotOf k (i + 1) methods size).2)
      | none => (some size :: (assignMethods slotOf k (i + 1) methods (size + 1)).1,(assignMethods slotOf k (i + 1) methods (size + 1)).2)
    else (none :: (assignMethods slotOf k (i + 1) methods size).1,(assignMethods slotOf k (i + 1) methods size).2)

abbrev Slots (K : Type) := List (K × List (Option ℕ))

def slotIn (slots : Slots K) (p : Place K) : Option ℕ := (slots.find? fun e => e.1 = p.1).bind fun e => e.2[p.2]?.join

def assignClass : List K → Slots K × ℕ
  | [] => ([],0)
  | k :: levels =>
    let base := assignClass levels
    let own := h.assignMethods (slotIn base.1) k 0 (h.methodsOf k) base.2
    ((k,own.1) :: base.1,own.2)

def vtableSlotOf (p : Place K) : Option ℕ := slotIn (h.assignClass (h.chain p.1)).1 p

def vtableSizeOf (k : K) : ℕ := (h.assignClass (h.chain k)).2

def isConcrete (p : Place K) : Bool := (h.methodAt p).any fun m => !m.isAbstract

def slotHolder (k : K) (slot : ℕ) : Option (Place K) := (h.chain k).findSome? fun level =>
  ((h.methodsOf level).zipIdx.find? fun e => !(e.1.isConstructor || e.1.isDestructor) && h.vtableSlotOf (level,e.2) = some slot).map
    fun e => (level,e.2)

/-- What the table of a class holds at a slot, none where the declaration is abstract. -/
def slotImplementation (k : K) (slot : ℕ) : Option (Place K) := (h.slotHolder k slot).filter h.isConcrete

def implements (required candidate : Method T) : Bool :=
  !(candidate.isConstructor || candidate.isDestructor) && required.sameSignature candidate

def implementationOf (k : K) (required : Method T) : Option (Place K) := (h.nearest (implements required) (h.chain k)).filter h.isConcrete

variable {h} {k : K} {m : Method T} {p q : Place K} {slot : ℕ} {levels : List K}

/-- Two places whose methods have one name and the same parameter types. -/
def SameAt (h : Hierarchy K J T) (p q : Place K) : Prop :=
  ∃ m m', h.methodAt p = some m ∧ h.methodAt q = some m' ∧ m.sameSignature m' = true

omit [DecidableEq K] in
theorem SameAt.symm (hs : SameAt h p q) : SameAt h q p := by
  obtain ⟨m,m',hp,hq,hs⟩ := hs
  refine ⟨m',m,hq,hp,?_⟩
  simp only [Method.sameSignature,Bool.and_eq_true,decide_eq_true_eq] at hs ⊢
  exact ⟨hs.1.symm,hs.2.symm⟩

omit [DecidableEq K] in
theorem SameAt.trans {r : Place K} (hs : SameAt h p q) (hs' : SameAt h q r) : SameAt h p r := by
  obtain ⟨m,m',hp,hq,hs⟩ := hs
  obtain ⟨n,n',hq',hr,hs'⟩ := hs'
  obtain rfl : m' = n := Option.some.inj (hq.symm.trans hq')
  refine ⟨m,n',hp,hr,?_⟩
  simp only [Method.sameSignature,Bool.and_eq_true,decide_eq_true_eq] at hs hs' ⊢
  exact ⟨hs'.1.trans hs.1,hs'.2.trans hs.2⟩

omit [DecidableEq K] in
theorem sameAt_refl (hm : h.methodAt p = some m) : SameAt h p p := ⟨m,m,hm,hm,by simp [Method.sameSignature]⟩

omit [DecidableEq K] in
theorem declaringBaseMethod_same (hm : h.methodAt p = some m) (hd : h.declaringBaseMethod p.1 m = some q) :
    q.1 ∈ h.bases p.1 ∧ SameAt h p q := by
  obtain ⟨hq,c,hc,hover⟩ := nearest_some hd
  rw [overriddenBy,Bool.and_eq_true] at hover
  exact ⟨hq,m,c,hm,hc,hover.2⟩

/-! ### One class -/

structure OwnSlot (h : Hierarchy K J T) (slotOf : Place K → Option ℕ) (k : K) (m : Method T) (i size last slot : ℕ) : Prop where
  needed : h.needsSlot k m i = true
  from_base_or_new : (h.declaringBaseMethod k m).bind slotOf = some slot ∨
    (h.declaringBaseMethod k m).bind slotOf = none ∧ size ≤ slot ∧ slot < last

theorem assignMethods_size {slotOf : Place K → Option ℕ} (methods : List (Method T)) (i size : ℕ) :
    size ≤ (h.assignMethods slotOf k i methods size).2 := by
  induction methods generalizing i size with
  | nil => exact le_rfl
  | cons m methods ih =>
    rw [assignMethods]
    split_ifs
    · split
      · exact ih (i + 1) size
      · exact le_trans (Nat.le_succ size) (ih (i + 1) (size + 1))
    · exact ih (i + 1) size

theorem assignMethods_slot {slotOf : Place K → Option ℕ} {methods : List (Method T)} {i size j : ℕ}
    (hs : (h.assignMethods slotOf k i methods size).1[j]? = some (some slot)) :
    ∃ m, methods[j]? = some m ∧ OwnSlot h slotOf k m (i + j) size (h.assignMethods slotOf k i methods size).2 slot := by
  induction methods generalizing i size j with
  | nil => cases hs
  | cons m methods ih =>
    rw [assignMethods] at hs ⊢
    split_ifs at hs ⊢ with hn
    · cases hb : (h.declaringBaseMethod k m).bind slotOf with
      | some s =>
        rw [hb] at hs
        dsimp only at hs ⊢
        cases j with
        | zero =>
          obtain rfl : s = slot := by simpa using hs
          exact ⟨m,rfl,hn,.inl hb⟩
        | succ j =>
          obtain ⟨m',hm',ho⟩ := ih hs
          exact ⟨m',hm',by rw [show i + (j + 1) = i + 1 + j by omega]; exact ho⟩
      | none =>
        rw [hb] at hs
        dsimp only at hs ⊢
        cases j with
        | zero =>
          obtain rfl : size = slot := by simpa using hs
          exact ⟨m,rfl,hn,.inr ⟨hb,le_rfl,assignMethods_size methods (i + 1) (size + 1)⟩⟩
        | succ j =>
          obtain ⟨m',hm',hneed,ho⟩ := ih hs
          refine ⟨m',hm',?_⟩
          rw [show i + (j + 1) = i + 1 + j by omega]
          exact ⟨hneed,ho.imp_right fun ⟨hb,hle,hlt⟩ => ⟨hb,le_trans (Nat.le_succ size) hle,hlt⟩⟩
    · dsimp only at hs ⊢
      cases j with
      | zero => cases hs
      | succ j =>
        obtain ⟨m',hm',ho⟩ := ih hs
        exact ⟨m',hm',by rw [show i + (j + 1) = i + 1 + j by omega]; exact ho⟩

theorem assignMethods_new {slotOf : Place K → Option ℕ} {methods : List (Method T)} {i size j l : ℕ}
    (hj : (h.assignMethods slotOf k i methods size).1[j]? = some (some slot))
    (hl : (h.assignMethods slotOf k i methods size).1[l]? = some (some slot))
    (hbj : ∀ m, methods[j]? = some m → (h.declaringBaseMethod k m).bind slotOf = none)
    (hbl : ∀ m, methods[l]? = some m → (h.declaringBaseMethod k m).bind slotOf = none) : j = l := by
  induction methods generalizing i size j l with
  | nil => cases hj
  | cons m methods ih =>
    -- A slot of the methods after a new one is another one.
    have hlater : ∀ {l : ℕ}, (h.assignMethods slotOf k (i + 1) methods (size + 1)).1[l]? = some (some size) →
        (∀ m, methods[l]? = some m → (h.declaringBaseMethod k m).bind slotOf = none) → False := by
      intro l hl hbl
      obtain ⟨m',hm',ho⟩ := assignMethods_slot hl
      rcases ho.from_base_or_new with hb | ⟨-,hle,-⟩
      · exact absurd (hb.symm.trans (hbl m' hm')) (Option.some_ne_none _)
      · omega
    rw [assignMethods] at hj hl
    split_ifs at hj hl with hn
    · cases hb : (h.declaringBaseMethod k m).bind slotOf with
      | some s =>
        rw [hb] at hj hl
        cases j with
        | zero => exact absurd (hb.symm.trans (hbj m rfl)) (Option.some_ne_none s)
        | succ j =>
          cases l with
          | zero => exact absurd (hb.symm.trans (hbl m rfl)) (Option.some_ne_none s)
          | succ l => exact congrArg (· + 1) (ih hj hl hbj hbl)
      | none =>
        rw [hb] at hj hl
        dsimp only at hj hl
        cases j with
        | zero =>
          obtain rfl : size = slot := by simpa using hj
          cases l with
          | zero => rfl
          | succ l => exact (hlater hl hbl).elim
        | succ j =>
          cases l with
          | zero =>
            obtain rfl : size = slot := by simpa using hl
            exact (hlater hj hbj).elim
          | succ l => exact congrArg (· + 1) (ih hj hl hbj hbl)
    · dsimp only at hj hl
      cases j with
      | zero => cases hj
      | succ j =>
        cases l with
        | zero => cases hl
        | succ l => exact congrArg (· + 1) (ih hj hl hbj hbl)

/-! ### A chain of classes -/

theorem slotIn_cons {own : List (Option ℕ)} {slots : Slots K} :
    slotIn ((k,own) :: slots) p = if k = p.1 then own[p.2]?.join else slotIn slots p := by
  rw [slotIn,List.find?_cons]
  split_ifs with hk <;> simp [hk,slotIn]

theorem slotIn_assignClass_cons (hs : slotIn (h.assignClass (k :: levels)).1 p = some slot) :
    (k = p.1 ∧ ∃ m, h.methodAt p = some m ∧ OwnSlot h (slotIn (h.assignClass levels).1) k m p.2 (h.assignClass levels).2
      (h.assignClass (k :: levels)).2 slot) ∨ k ≠ p.1 ∧ slotIn (h.assignClass levels).1 p = some slot := by
  rw [assignClass,slotIn_cons] at hs
  split_ifs at hs with hk
  · refine .inl ⟨hk,?_⟩
    obtain ⟨m,hm,ho⟩ := assignMethods_slot (Option.join_eq_some_iff.mp hs)
    rw [Nat.zero_add] at ho
    exact ⟨m,by rw [methodAt,← hk]; exact hm,ho⟩
  · exact .inr ⟨hk,hs⟩

theorem assignClass_size (k : K) (levels : List K) : (h.assignClass levels).2 ≤ (h.assignClass (k :: levels)).2 :=
  assignMethods_size (h.methodsOf k) 0 _

theorem slot_lt_size (hs : slotIn (h.assignClass levels).1 p = some slot) : slot < (h.assignClass levels).2 := by
  induction levels generalizing p with
  | nil => cases hs
  | cons k levels ih =>
    rcases slotIn_assignClass_cons hs with ⟨-,m,hm,ho⟩ | ⟨-,hs⟩
    · rcases ho.from_base_or_new with hb | ⟨-,-,hlt⟩
      · obtain ⟨q,-,hq⟩ := Option.bind_eq_some_iff.mp hb
        exact lt_of_lt_of_le (ih hq) (assignClass_size k levels)
      · exact hlt
    · exact lt_of_lt_of_le (ih hs) (assignClass_size k levels)

/-- Two methods of a chain share a slot only with one name and the same parameter types. -/
theorem sameAt_of_slot (hp : slotIn (h.assignClass levels).1 p = some slot) (hq : slotIn (h.assignClass levels).1 q = some slot) :
    SameAt h p q := by
  induction levels generalizing p q with
  | nil => cases hp
  | cons k levels ih =>
    have hbase : ∀ {p m}, k = p.1 → h.methodAt p = some m → (h.declaringBaseMethod k m).bind (slotIn (h.assignClass levels).1) = some slot →
        ∃ r, SameAt h p r ∧ slotIn (h.assignClass levels).1 r = some slot := by
      rintro p m rfl hm hb
      obtain ⟨r,hr,hs⟩ := Option.bind_eq_some_iff.mp hb
      exact ⟨r,(declaringBaseMethod_same hm hr).2,hs⟩
    have hp' := hp
    have hq' := hq
    rw [assignClass,slotIn_cons] at hp' hq'
    rcases slotIn_assignClass_cons hp with ⟨hk,m,hm,ho⟩ | ⟨hk,hp⟩
    · rcases slotIn_assignClass_cons hq with ⟨hk',m',hm',ho'⟩ | ⟨hk',hq⟩
      · rcases ho.from_base_or_new with hb | ⟨hb,hle,-⟩
        · obtain ⟨r,hr,hs⟩ := hbase hk hm hb
          rcases ho'.from_base_or_new with hb' | ⟨-,hle,-⟩
          · obtain ⟨r',hr',hs'⟩ := hbase hk' hm' hb'
            exact hr.trans ((ih hs hs').trans hr'.symm)
          · exact absurd (slot_lt_size hs) (by omega)
        · rcases ho'.from_base_or_new with hb' | ⟨hb',-,-⟩
          · obtain ⟨r',hr',hs'⟩ := hbase hk' hm' hb'
            exact absurd (slot_lt_size hs') (by omega)
          · rw [if_pos hk] at hp'
            rw [if_pos hk'] at hq'
            have hsame : p.2 = q.2 := by
              refine assignMethods_new (Option.join_eq_some_iff.mp hp') (Option.join_eq_some_iff.mp hq') (fun n hn => ?_) fun n hn => ?_
              · rw [methodAt,← hk] at hm
                exact Option.some.inj (hm.symm.trans hn) ▸ hb
              · rw [methodAt,← hk'] at hm'
                exact Option.some.inj (hm'.symm.trans hn) ▸ hb'
            obtain rfl : p = q := Prod.ext (hk.symm.trans hk') hsame
            exact sameAt_refl hm
      · rcases ho.from_base_or_new with hb | ⟨-,hle,-⟩
        · obtain ⟨r,hr,hs⟩ := hbase hk hm hb
          exact hr.trans (ih hs hq)
        · exact absurd (slot_lt_size hq) (by omega)
    · rcases slotIn_assignClass_cons hq with ⟨hk',m',hm',ho'⟩ | ⟨hk',hq⟩
      · rcases ho'.from_base_or_new with hb | ⟨-,hle,-⟩
        · obtain ⟨r,hr,hs⟩ := hbase hk' hm' hb
          exact (ih hp hs).trans hr.symm
        · exact absurd (slot_lt_size hp) (by omega)
      · exact ih hp hq

/-- A class type's slots in the table of a class below it are its own. -/
theorem slotIn_chain (hp : p.1 ∈ h.chain k) : slotIn (h.assignClass (h.chain k)).1 p = h.vtableSlotOf p := by
  obtain ⟨below,hsplit⟩ := chain_split hp
  have hnot : p.1 ∉ below := by
    intro hb
    have hpair := chain_pairwise (h := h) k
    rw [hsplit,List.pairwise_append] at hpair
    exact lt_irrefl _ (hpair.2.2 p.1 hb p.1 List.mem_cons_self)
  rw [hsplit,vtableSlotOf]
  clear hsplit hp
  induction below with
  | nil => rfl
  | cons b below ih =>
    rw [List.cons_append,assignClass,slotIn_cons,if_neg fun hb : b = p.1 => hnot (hb ▸ List.mem_cons_self)]
    exact ih fun hb => hnot (List.mem_cons_of_mem _ hb)

end Ens.Dispatch.Hierarchy

/-! ## The trailing error slot

Which callables have an error slot in their machine interface. A method follows the topmost method of its name and parameter types up
the base chain: that method's marker, or a mark for the methods that implement a throwing interface method.
-/
namespace Ens.Dispatch.Hierarchy
variable {K J T : Type} [DecidableEq K] [DecidableEq T] (h : Hierarchy K J T)

def declares (m candidate : Method T) : Bool := !candidate.isConstructor && m.sameSignature candidate

def rootDeclarationOf (owner : K) (p : Place K) : Place K :=
  (h.methodAt p).elim p fun m => h.topmost (declares m) (h.bases owner) p

def findDeclaring (owner : K) (required : Method T) : Option (Place K) := h.nearest (declares required) (h.chain owner)

def markConformance (classType : K) (implemented : J) : List (Place K) :=
  (h.interfaceMethodsOf implemented).filterMap fun candidate =>
    if candidate.declaresThrows then
      (h.findDeclaring classType candidate).map fun provided =>
        h.declarationOf (h.rootDeclarationOf (h.declared provided.1) provided)
    else none

def carryingFamilies : List (Place K) :=
  h.classes.flatMap fun classType => (h.conformances classType).flatMap (h.markConformance classType)

def marked (p : Place K) : Bool := (h.methodAt p).any Method.declaresThrows

def isMethod (p : Place K) : Bool := (h.methodAt p).any fun m => !(m.isConstructor || m.isDestructor)

def carries (p : Place K) : Bool :=
  (h.methodAt p).any fun m =>
    if m.isConstructor || m.isDestructor then m.declaresThrows
    else h.marked (h.rootDeclarationOf p.1 p) || decide (h.declarationOf (h.rootDeclarationOf p.1 p) ∈ h.carryingFamilies)

def abiThrows (p : Place K) : Bool := h.carries (h.declarationOf p)

/-- One slot has one error interface, and what can throw has an error slot. A call is lowered against the method of its static type,
and against an interface method's own marker. -/
structure OneErrorAbi : Prop where
  vtable : ∀ k p q slot, p.1 ∈ h.chain k → h.vtableSlotOf p = some slot → h.slotImplementation k slot = some q →
    h.abiThrows q = h.abiThrows p
  interface : ∀ k, ∀ j ∈ h.conformances k, ∀ required ∈ h.interfaceMethodsOf j, ∀ q, h.implementationOf k required = some q →
    h.abiThrows q = required.declaresThrows
  throwing : ∀ p, h.marked p = true → h.abiThrows p = true

def findInBase (k : K) (m : Method T) : Option (Place K) :=
  h.nearest (fun candidate => m.sameSignature candidate && !candidate.isPrivate) (h.bases k)

/-- A method marked as throwing overrides no method that is not. -/
def Accepted : Prop := ∀ k ∈ h.classes, ∀ p : Place K, p.1 = k → ∀ m, h.methodAt p = some m → m.declaresThrows = true →
  ∀ q, h.findInBase k m = some q → h.marked q = true

structure Steady : Prop where
  distinct : ∀ p q, p.1 = q.1 → h.isMethod p = true → SameAt h p q → p = q
  root : ∀ p, h.declarationOf (h.rootDeclarationOf (h.declared p.1) p) = h.declarationOf (h.rootDeclarationOf p.1 p)
  root_declared : ∀ p, h.declarationOf (h.rootDeclarationOf (h.declared p.1) (h.declarationOf p)) =
    h.declarationOf (h.rootDeclarationOf p.1 p)
  provided : ∀ k, ∀ j ∈ h.conformances k, ∀ required ∈ h.interfaceMethodsOf j, required.declaresThrows = true →
    ∀ q, h.implementationOf k required = some q →
      ∃ j' ∈ h.conformances (h.declared k), ∃ required' ∈ h.interfaceMethodsOf j', required'.declaresThrows = true ∧
        ∃ q', h.findDeclaring (h.declared k) required' = some q' ∧ h.declarationOf q' = h.declarationOf q

/-- A class implements a throwing interface method by a method of the family. -/
def ImplementsThrowing (root : Place K) : Prop :=
  ∃ k ∈ h.classes, ∃ j ∈ h.conformances k, ∃ required ∈ h.interfaceMethodsOf j, required.declaresThrows = true ∧
    ∃ q, h.findDeclaring k required = some q ∧ h.declarationOf (h.rootDeclarationOf q.1 q) = h.declarationOf root

/-- A private method on top of a method marked as throwing is marked too, or implements a throwing interface method. -/
def PrivateRootsThrow : Prop := ∀ k ∈ h.classes, ∀ p : Place K, p.1 = k → h.isMethod p = true → h.marked p = true →
  (h.methodAt (h.rootDeclarationOf k p)).any Method.isPrivate = true →
    h.marked (h.rootDeclarationOf k p) = true ∨ h.ImplementsThrowing (h.rootDeclarationOf k p)

/-- A method that implements an interface method without the marker has no family that is marked or implements a throwing one. -/
def RequirementsAgree : Prop := ∀ k, ∀ j ∈ h.conformances k, ∀ required ∈ h.interfaceMethodsOf j, required.declaresThrows = false →
  ∀ q, h.implementationOf k required = some q →
    h.marked (h.rootDeclarationOf q.1 q) = false ∧ ¬h.ImplementsThrowing (h.rootDeclarationOf q.1 q)

end Ens.Dispatch.Hierarchy
