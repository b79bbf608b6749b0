import Ens.Constants.Order

/-! # Constants and the order of their declarations

A const has a value when its initializer is a constant expression and its reads reach no cycle. Only what its program declares
decides the value, not the order it is declared in.
-/
namespace Ens.Constants
open Relation
variable {F : Type} {P Q : Program} {m : Machine F} {s : State F} {order : List FieldId} {item : Item} {id : FieldId} {v : Value F}

/-! ### Cycles -/

theorem Closed.unreported {reports : List (FieldId × Problem)} (h : Closed P m reports order) (hn : order.Nodup) {a b : FieldId}
    (ha : a ∈ order) (hab : TransGen (fun a b => Reads P m a b ∧ ¬Reported reports a b) a b) : b ∈ order ∧ a ≠ b := by
  induction order generalizing a with
  | nil => cases ha
  | cons x rest ih =>
    obtain ⟨hx,hrest⟩ := List.nodup_cons.mp hn
    have hstep : ∀ b, Reads P m x b ∧ ¬Reported reports x b → b ∈ rest := fun b hb => (h.1 b hb.1).resolve_right hb.2
    have hbrest : b ∈ rest ∧ a ≠ b := by
      rcases List.mem_cons.mp ha with rfl | ha
      · obtain ⟨c,hc,hcb⟩ := TransGen.head'_iff.mp hab
        have hb : b ∈ rest := by
          rcases reflTransGen_iff_eq_or_transGen.mp hcb with rfl | hcb
          · exact hstep _ hc
          · exact (ih h.2 hrest (hstep c hc) hcb).1
        exact ⟨hb,fun hab => hx (hab ▸ hb)⟩
      · exact ih h.2 hrest ha hab
    exact ⟨List.mem_cons_of_mem x hbrest.1,hbrest.2⟩

theorem mem_of_reads (hall : ∀ item ∈ items P, item.field.id ∈ order) {b : FieldId} (h : Reads P m id b) : id ∈ order := by
  obtain ⟨item,hitem,-⟩ := h
  obtain ⟨hmem,hid⟩ := itemOf_eq_some hitem
  exact hid ▸ hall item hmem

theorem Settled.cycle (h : Settled P m s order) (hall : ∀ item ∈ items P, item.field.id ∈ order) (k : FieldId) :
    ¬TransGen (fun a b => Reads P m a b ∧ ¬Reported s.reports a b) k k := by
  intro hcycle
  obtain ⟨c,hc,-⟩ := TransGen.head'_iff.mp hcycle
  exact (h.closed.unreported h.nodup (mem_of_reads hall hc.1) hcycle).2 rfl

/-! ### Values -/

theorem Settled.value_iff (h : Settled P m s order) (hall : ∀ item ∈ items P, item.field.id ∈ order) :
    s.value id = some v ↔ Denotes P m id v := by
  refine ⟨h.sound id v,fun hv => ?_⟩
  cases hv with
  | intro hitem henv hv =>
    obtain ⟨hmem,hid⟩ := itemOf_eq_some hitem
    exact h.complete id (hid ▸ hall _ hmem) v (.intro hitem henv hv)

theorem Settled.denotes_iff (h : Settled P m s order) (hall : ∀ item ∈ items P, item.field.id ∈ order) (hitem : itemOf P id = some item) :
    Denotes P m id v ↔ constant P m s.value item = some v := by
  constructor
  · intro hv
    cases hv with
    | intro hitem' henv hv =>
      cases hitem.symm.trans hitem'
      rw [← hv]
      refine constant_congr fun d hd => ?_
      obtain ⟨w,hw⟩ := constant_strict hv hd
      rw [hw,h.value_iff hall]
      exact henv d w hw
  · exact Denotes.intro hitem h.sound

/-! ### Another order -/

/-- A program that declares the same fields in another order. A layout may have its fields in another order too. -/
structure Rearranged (P Q : Program) : Prop where
  fields : Q.fields.Perm P.fields
  binding : Q.binding = P.binding
  declared : Q.declared = P.declared
  typeParameters : Q.typeParameters = P.typeParameters
  bases : Q.bases = P.bases
  visible : Q.visible = P.visible
  readable : Q.readable = P.readable

theorem Rearranged.symm (h : Rearranged P Q) : Rearranged Q P :=
  ⟨h.fields.symm,h.binding.symm,h.declared.symm,h.typeParameters.symm,h.bases.symm,h.visible.symm,h.readable.symm⟩

theorem Rearranged.findStatic_of_some (h : Rearranged P Q) {owner : Declared} {name : Name} {f : Field}
    (hf : findStatic P owner name = some f) : findStatic Q owner name = some f := by
  have hp : f.id.owner = owner ∧ f.id.isStatic ∧ f.id.name = name := by simpa using List.find?_some hf
  obtain ⟨rfl,hs,rfl⟩ := hp
  exact findStatic_self (h.fields.mem_iff.mpr (findStatic_mem hf)) hs

theorem Rearranged.findStatic (h : Rearranged P Q) : findStatic Q = findStatic P := by
  funext owner name
  cases hf : Constants.findStatic P owner name with
  | some f => exact h.findStatic_of_some hf
  | none =>
    cases hq : Constants.findStatic Q owner name with
    | none => rfl
    | some f => exact (h.symm.findStatic_of_some hq).symm.trans hf

theorem Rearranged.resolveHead (h : Rearranged P Q) : resolveHead Q = resolveHead P := by
  funext item head memberName
  have hdeclared : resolveDeclared Q = resolveDeclared P := by
    funext item name
    simp only [resolveDeclared,h.binding,h.declared]
  have howner : asStaticOwner Q = asStaticOwner P := by
    funext d
    simp only [asStaticOwner,h.declared]
  have hwithout : headWithoutStatics Q = headWithoutStatics P := by
    funext d name
    simp only [headWithoutStatics,h.declared]
  simp only [Constants.resolveHead,resolveTypeName,unknownHead,resolveQualifiedHead,resolveModuleType,hdeclared,howner,hwithout,
    h.typeParameters,h.binding,h.declared,h.visible]

theorem Rearranged.resolveReference (h : Rearranged P Q) : resolveReference Q = resolveReference P := by
  funext item object memberName
  simp only [Constants.resolveReference,missingStaticConst,h.resolveHead,h.findStatic,h.bases,h.readable]

theorem Rearranged.itemOf_of_some (h : Rearranged P Q) (hs : id.isStatic) (hitem : itemOf P id = some item) : itemOf Q id = some item := by
  obtain ⟨hmem,hid⟩ := itemOf_eq_some hitem
  obtain ⟨f,hf,hg⟩ := List.mem_filterMap.mp hmem
  have hfield : item.field = f := gatherField_field hf hg
  have hsf : f.id.isStatic = true := by rw [← hfield,hid,hs]
  have hgq : gatherField Q f = gatherField P f := by
    simp only [gatherField,hsf,if_true,h.findStatic]
  have hmemq : item ∈ items Q := List.mem_filterMap.mpr ⟨f,h.fields.mem_iff.mpr hf,hgq.trans hg⟩
  exact hid ▸ itemOf_self hmemq

theorem Rearranged.itemOf (h : Rearranged P Q) (hs : id.isStatic) : itemOf Q id = itemOf P id := by
  cases hp : Constants.itemOf P id with
  | some item => exact h.itemOf_of_some hs hp
  | none =>
    cases hq : Constants.itemOf Q id with
    | none => rfl
    | some item => exact (h.symm.itemOf_of_some hs hq).symm.trans hp

theorem resolveReference_static {object : Expr} {name : Name} {field : Field} (h : resolveReference P item object name = .ok field) :
    field.id.isStatic := by
  unfold resolveReference at h
  split at h
  · split at h
    · cases h
    · split at h <;> cases h
  · split at h
    · cases h
    · split at h
      · cases h
      · next hfind =>
        split_ifs at h
        cases h
        have hp := List.find?_some hfind
        simp only [decide_eq_true_eq] at hp
        exact hp.2.1

theorem Rearranged.constantOf (h : Rearranged P Q) (env : FieldId → Option (Value F)) : ∀ e : Expr,
    constantOf Q m env item e = constantOf P m env item e
  | .literal _ => rfl
  | .parenthesized inner => h.constantOf env inner
  | .prefixed operator operand => by simp only [Constants.constantOf,h.constantOf env operand]
  | .binary operator left right => by simp only [Constants.constantOf,h.constantOf env left,h.constantOf env right]
  | .member object name => by
    simp only [Constants.constantOf,h.resolveReference]
    cases hr : Constants.resolveReference P item object name with
    | error _ => rfl
    | ok field => simp only [h.itemOf (resolveReference_static hr)]
  | .identifier _ | .runtime _ _ | .genericName _ | .this | .lambda => rfl

theorem static_of_not_lazy (hitem : itemOf P id = some item) (hlazy : item.field.isLazy = false) : id.isStatic := by
  obtain ⟨hmem,hid⟩ := itemOf_eq_some hitem
  obtain ⟨f,hf,hg⟩ := List.mem_filterMap.mp hmem
  have hfield : item.field = f := gatherField_field hf hg
  rw [← hid,hfield]
  rw [hfield] at hlazy
  by_contra hs
  rw [gatherField,Bool.eq_false_iff.mpr hs,hlazy] at hg
  cases hg

theorem Rearranged.denotes (h : Rearranged P Q) (hv : Denotes P m id v) : Denotes Q m id v := by
  induction hv with
  | intro hitem _ hv ih =>
    obtain ⟨hlazy,-,-⟩ := constant_eq_some hv
    refine .intro ((h.itemOf (static_of_not_lazy hitem hlazy)).trans hitem) ih ?_
    rw [← hv,constant,constant,h.constantOf]

/-! ### Evaluation -/

/-- What evaluation comes to: a const has a value when its initializer is a constant expression, with the values of the consts it
reads, and its reads reach no cycle, and no cycle of reads is without a report. -/
structure Evaluated (P : Program) (m : Machine F) (s : State F) : Prop where
  value : ∀ item ∈ items P, ∀ v, s.value item.field.id = some v ↔ ¬ReachesCycle P m item.field.id ∧ constant P m s.value item = some v
  cycle : ∀ k, ¬TransGen (fun a b => Reads P m a b ∧ ¬Reported s.reports a b) k k

/-- Evaluation ends, and the constants have the same values whatever the order they are declared in. -/
theorem evaluateProgram_exact (P : Program) (m : Machine F) : ∃ s, evaluateProgram P m = some s ∧ Evaluated P m s ∧
    ∀ Q, Rearranged P Q → ∃ t, evaluateProgram Q m = some t ∧ t.value = s.value := by
  obtain ⟨s,order,hs,h,hall⟩ := evaluateProgram_spec P m
  refine ⟨s,hs,⟨fun item hitem v => ?_,h.cycle hall⟩,fun Q hpq => ?_⟩
  · have hdenotes := h.denotes_iff (v := v) hall (itemOf_self hitem)
    rw [h.value_iff hall]
    exact ⟨fun hv => ⟨hv.not_reachesCycle,hdenotes.mp hv⟩,fun hv => hdenotes.mpr hv.2⟩
  · obtain ⟨t,order',ht,h',hall'⟩ := evaluateProgram_spec Q m
    refine ⟨t,ht,funext fun k => Option.ext fun v => ?_⟩
    rw [h.value_iff hall,h'.value_iff hall']
    exact ⟨hpq.symm.denotes,hpq.denotes⟩

/-! ### Reads that evaluation does not follow -/

mutual

def mentions (P : Program) (item : Item) : Expr → List FieldId
  | .member object name => (match resolveReference P item object name with
    | .ok field => if (itemOf P field.id).isSome then [field.id] else []
    | .error _ => []) ++ mentions P item object
  | .parenthesized inner => mentions P item inner
  | .prefixed _ operand => mentions P item operand
  | .binary _ left right => mentions P item left ++ mentions P item right
  | .genericName head => mentions P item head
  | .runtime _ children => mentionsEach P item children
  | .literal _ | .identifier _ | .this | .lambda => []

def mentionsEach (P : Program) (item : Item) : List Expr → List FieldId
  | [] => []
  | e :: es => mentions P item e ++ mentionsEach P item es

end

def Mentions (P : Program) (a b : FieldId) : Prop := ∃ item, itemOf P a = some item ∧ b ∈ mentions P item item.initializer

def wholeNumbers : Machine Int where
  zero := 0
  half := 0
  largestFloat := 0
  add a b := a + b
  sub a b := a - b
  mul a b := a * b
  div a b := a / b
  lt a b := decide (a < b)
  le a b := decide (a ≤ b)
  eq a b := decide (a = b)
  ofMagnitude n := n
  integerMagnitude _ := none
  floatMagnitude _ := 0
  decodeString text := text
  charCodepoint _ := 0

def comparedId : FieldId := ⟨⟨['m'],['T']⟩,true,['a']⟩

def compared : Program where
  fields := [⟨comparedId,.primitive .bool,false,false,some (.binary .other (.member (.identifier ['T']) ['a']) (.literal (.bool true)))⟩]
  unique := by decide
  binding := fun _ _ => none
  declared := fun d => if d = comparedId.owner then some .statics else none
  typeParameters := fun _ => []
  bases := fun _ => []
  layout := fun _ => []
  shared := nofun
  visible := fun _ _ => true
  readable := fun _ _ => true

/-- A const that reads itself in a comparison is refused for the comparison alone. -/
theorem compared_unreported : ∃ s, evaluateProgram compared wholeNumbers = some s ∧
    TransGen (fun a b => Mentions compared a b ∧ ¬Reported s.reports a b) comparedId comparedId := by
  refine ⟨_,rfl,.single ⟨⟨_,rfl,?_⟩,?_⟩⟩
  · exact List.mem_cons_self
  · rintro (h | h)
    · cases List.mem_singleton.mp h
    · cases List.mem_singleton.mp h

end Ens.Constants
