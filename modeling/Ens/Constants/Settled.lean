import Ens.Constants.Evaluate
import Mathlib.Data.List.Nodup
import Mathlib.Logic.Relation

/-! # What a constant denotes

The value of an initializer as a function of the values of the consts it reads. A const denotes a value when the consts it reads
do, so none on a cycle denotes one.
-/
set_option linter.all false
namespace Ens.Constants
variable {F : Type} (P : Program) (m : Machine F)

def reads (item : Item) : Expr → List FieldId
  | .parenthesized inner => reads item inner
  | .prefixed operator operand => if operator.isSign && (negatedBeyond m operator operand).isNone then reads item operand else []
  | .binary operator left right => if isConstantOperator operator then reads item left ++ reads item right else []
  | .member object name => match resolveReference P item object name with
    | .ok field => if (itemOf P field.id).isSome then [field.id] else []
    | .error _ => []
  | .literal _ | .identifier _ | .runtime _ _ | .genericName _ | .this | .lambda => []

def lazyRead (item : Item) (object : Expr) (name : Name) : List FieldId :=
  match lazyReference P item object name with
  | some field => if (itemOf P field.id).isSome then [field.id] else []
  | none => []

mutual

def lazyReads (item : Item) : Expr → List FieldId
  | .member object name => lazyRead P item object name ++ lazyReads item object
  | .parenthesized inner => lazyReads item inner
  | .prefixed _ operand => lazyReads item operand
  | .binary _ left right => lazyReads item left ++ lazyReads item right
  | .genericName head => lazyReads item head
  | .runtime _ children => lazyReadsEach item children
  | .literal _ | .identifier _ | .this | .lambda => []

def lazyReadsEach (item : Item) : List Expr → List FieldId
  | [] => []
  | e :: es => lazyReads item e ++ lazyReadsEach item es

end

def follows (item : Item) : List FieldId :=
  if item.field.isLazy then lazyReads P item item.initializer
  else if isConstantFamily item.field.type then reads P m item item.initializer
  else []

/-- A const reads another on its way to a value. -/
def Reads (a b : FieldId) : Prop := ∃ item, itemOf P a = some item ∧ b ∈ follows P m item

def constantOf (env : FieldId → Option (Value F)) (item : Item) : Expr → Option (Value F)
  | .literal token => (evaluateLiteral m token).toOption
  | .parenthesized inner => constantOf env item inner
  | .prefixed operator operand =>
    if operator.isSign && (negatedBeyond m operator operand).isNone then
      (constantOf env item operand).bind fun v => (applySign m operator v).toOption
    else none
  | .binary operator left right =>
    if isConstantOperator operator then
      (constantOf env item left).bind fun l => (constantOf env item right).bind fun r => (combine m operator l r).toOption
    else none
  | .member object name => match resolveReference P item object name with
    | .ok field => if (itemOf P field.id).isSome then env field.id else none
    | .error _ => none
  | .identifier _ | .runtime _ _ | .genericName _ | .this | .lambda => none

def constant (env : FieldId → Option (Value F)) (item : Item) : Option (Value F) :=
  if item.field.isLazy || !isConstantFamily item.field.type then none
  else (constantOf P m env item item.initializer).bind fun v => (fitDeclaredType m item.field.type v).toOption

inductive Denotes : FieldId → Value F → Prop
  | intro {id : FieldId} {item : Item} {env : FieldId → Option (Value F)} {v : Value F} (hitem : itemOf P id = some item)
      (henv : ∀ d w, env d = some w → Denotes d w) (hv : constant P m env item = some v) : Denotes id v

variable {P m} {item : Item} {env env' : FieldId → Option (Value F)} {id : FieldId} {v w : Value F}

/-! ### Values of expressions -/

theorem constantOf_congr : ∀ {e : Expr}, (∀ d ∈ reads P m item e, env d = env' d) → constantOf P m env item e = constantOf P m env' item e
  | .literal _, _ => rfl
  | .parenthesized inner, h => constantOf_congr (e := inner) h
  | .prefixed operator operand, h => by
    rw [constantOf,constantOf]
    rw [reads] at h
    split_ifs at h ⊢ with hs
    · rw [constantOf_congr (e := operand) h]
    · rfl
  | .binary operator left right, h => by
    rw [constantOf,constantOf]
    rw [reads] at h
    split_ifs at h ⊢ with hs
    · rw [constantOf_congr (e := left) fun d hd => h d (List.mem_append_left _ hd),
        constantOf_congr (e := right) fun d hd => h d (List.mem_append_right _ hd)]
    · rfl
  | .member object name, h => by
    rw [constantOf,constantOf]
    rw [reads] at h
    cases hr : resolveReference P item object name with
    | error _ => rfl
    | ok field =>
      rw [hr] at h
      dsimp only at h ⊢
      split_ifs at h ⊢ with hi
      · exact h field.id List.mem_cons_self
      · rfl
  | .identifier _, _ | .runtime _ _, _ | .genericName _, _ | .this, _ | .lambda, _ => rfl

/-- An expression has no value unless everything it reads has one. -/
theorem constantOf_strict : ∀ {e : Expr} {v : Value F}, constantOf P m env item e = some v → ∀ d ∈ reads P m item e, ∃ w, env d = some w
  | .literal _, _, _, d, hd => by cases hd
  | .parenthesized inner, _, h, d, hd => constantOf_strict (e := inner) h d hd
  | .prefixed operator operand, _, h, d, hd => by
    rw [reads] at hd
    rw [constantOf] at h
    split_ifs at h hd with hs
    · obtain ⟨u,hu,-⟩ := Option.bind_eq_some_iff.mp h
      exact constantOf_strict (e := operand) hu d hd
  | .binary operator left right, _, h, d, hd => by
    rw [reads] at hd
    rw [constantOf] at h
    split_ifs at h hd with hs
    · obtain ⟨l,hl,h⟩ := Option.bind_eq_some_iff.mp h
      obtain ⟨r,hr,-⟩ := Option.bind_eq_some_iff.mp h
      rcases List.mem_append.mp hd with hd | hd
      · exact constantOf_strict (e := left) hl d hd
      · exact constantOf_strict (e := right) hr d hd
  | .member object name, _, h, d, hd => by
    rw [reads] at hd
    rw [constantOf] at h
    cases hr : resolveReference P item object name with
    | error _ =>
      rw [hr] at hd
      cases hd
    | ok field =>
      rw [hr] at h hd
      dsimp only at h hd
      split_ifs at h hd with hi
      · exact ⟨_,List.mem_singleton.mp hd ▸ h⟩

theorem constant_eq_some (h : constant P m env item = some v) : item.field.isLazy = false ∧ isConstantFamily item.field.type = true ∧
    ∃ u, constantOf P m env item item.initializer = some u := by
  rw [constant] at h
  split_ifs at h with hc
  rw [Bool.or_eq_true,not_or,Bool.not_eq_true,Bool.not_eq_true',Bool.not_eq_false] at hc
  obtain ⟨u,hu,-⟩ := Option.bind_eq_some_iff.mp h
  exact ⟨hc.1,hc.2,u,hu⟩

theorem follows_of_constant (h : constant P m env item = some v) : follows P m item = reads P m item item.initializer := by
  obtain ⟨hlazy,hfamily,-⟩ := constant_eq_some h
  rw [follows,hlazy,hfamily]
  rfl

theorem constant_congr (h : ∀ d ∈ follows P m item, env d = env' d) : constant P m env item = constant P m env' item := by
  rw [constant,constant]
  split_ifs with hc
  · rfl
  · rw [Bool.or_eq_true,not_or,Bool.not_eq_true,Bool.not_eq_true',Bool.not_eq_false] at hc
    rw [follows,hc.1,hc.2] at h
    rw [constantOf_congr h]

theorem constant_strict (h : constant P m env item = some v) {d : FieldId} (hd : d ∈ follows P m item) : ∃ w, env d = some w := by
  obtain ⟨-,-,u,hu⟩ := constant_eq_some h
  exact constantOf_strict hu d (follows_of_constant h ▸ hd)

/-! ### What is denoted -/

theorem Denotes.reads (hv : Denotes P m id v) {d : FieldId} (hd : Reads P m id d) : ∃ w, Denotes P m d w := by
  cases hv with
  | intro hitem henv hv =>
    obtain ⟨item,hitem',hd⟩ := hd
    cases hitem.symm.trans hitem'
    obtain ⟨w,hw⟩ := constant_strict hv hd
    exact ⟨w,henv d w hw⟩

theorem Denotes.acc (hv : Denotes P m id v) : Acc (fun b a => Reads P m a b) id := by
  induction hv with
  | intro hitem _ hv ih =>
    refine Acc.intro _ fun d hd => ?_
    obtain ⟨item,hitem',hd⟩ := hd
    cases hitem.symm.trans hitem'
    obtain ⟨w,hw⟩ := constant_strict hv hd
    exact ih d w hw

/-- A const from which reads lead to a cycle. -/
def ReachesCycle (P : Program) (m : Machine F) (id : FieldId) : Prop :=
  ∃ k, Relation.ReflTransGen (Reads P m) id k ∧ Relation.TransGen (Reads P m) k k

theorem Denotes.not_cycle (hv : Denotes P m id v) : ¬Relation.TransGen (Reads P m) id id := by
  intro h
  have hacc : Acc (Relation.TransGen (Function.swap (Reads P m))) id := hv.acc.transGen
  have hself : Relation.TransGen (Function.swap (Reads P m)) id id := Relation.transGen_swap.mpr h
  clear h hv
  induction hacc with
  | intro x _ ih => exact ih x hself hself

theorem Denotes.not_reachesCycle (hv : Denotes P m id v) : ¬ReachesCycle P m id := by
  rintro ⟨k,hk,hcycle⟩
  induction hk using Relation.ReflTransGen.head_induction_on generalizing v with
  | refl => exact hv.not_cycle hcycle
  | head hr _ ih =>
    obtain ⟨w,hw⟩ := hv.reads hr
    exact ih hw

end Ens.Constants

/-! ## What evaluation settles

The consts whose evaluation is over have the values they denote, and each of them was over after those it reads, but for the reads
that are reported to close a cycle.
-/
namespace Ens.Constants
variable {F : Type} {P : Program} {m : Machine F} {s s' t : State F} {order order' : List FieldId} {item : Item} {id : FieldId}

/-! ### The consts of a program -/

theorem findStatic_self {f : Field} (hf : f ∈ P.fields) (hs : f.id.isStatic) : findStatic P f.id.owner f.id.name = some f := by
  rw [findStatic]
  cases hfind : P.fields.find? fun g => g.id.owner = f.id.owner ∧ g.id.isStatic ∧ g.id.name = f.id.name with
  | none => exact absurd (List.find?_eq_none.mp hfind f hf) (by simp [hs])
  | some g =>
    have hg : g.id.owner = f.id.owner ∧ g.id.isStatic ∧ g.id.name = f.id.name := by simpa using List.find?_some hfind
    have hid : g.id = f.id := by
      cases hgi : g.id
      cases hfi : f.id
      rw [hgi,hfi] at hg
      rw [hfi] at hs
      obtain ⟨rfl,hgs,rfl⟩ := hg
      cases hs.trans hgs.symm
      rfl
    exact congrArg some (List.inj_on_of_nodup_map P.unique (List.mem_of_find?_eq_some hfind) hf hid)

theorem gatherField_field {f : Field} (hf : f ∈ P.fields) (h : gatherField P f = some item) : item.field = f := by
  rw [gatherField] at h
  split_ifs at h with hk hs
  · rw [findStatic_self hf hs] at h
    dsimp only at h
    rw [if_neg (not_not.mpr rfl)] at h
    obtain ⟨e,-,rfl⟩ := Option.map_eq_some_iff.mp h
    rfl
  · cases hfind : findInLayout P f.id.owner f.id.name with
    | none =>
      rw [hfind] at h
      cases h
    | some g =>
      rw [hfind] at h
      dsimp only at h
      split_ifs at h with hid
      obtain ⟨e,-,rfl⟩ := Option.map_eq_some_iff.mp h
      exact P.shared _ g (List.mem_of_find?_eq_some hfind) f hf (not_not.mp hid)

theorem items_nodup : ((items P).map fun item => item.field.id).Nodup := by
  have hsub : ∀ fields : List Field, (∀ f ∈ fields, f ∈ P.fields) →
      ((fields.filterMap (gatherField P)).map fun item => item.field.id).Sublist (fields.map Field.id) := by
    intro fields
    induction fields with
    | nil => exact fun _ => List.Sublist.refl _
    | cons f fields ih =>
      intro hf
      have hrest := ih fun g hg => hf g (List.mem_cons_of_mem f hg)
      cases hg : gatherField P f with
      | none => 
        rw [List.filterMap_cons_none hg]
        exact hrest.cons _
      | some i =>
        rw [List.filterMap_cons_some hg,List.map_cons,List.map_cons,gatherField_field (hf f List.mem_cons_self) hg]
        exact hrest.cons_cons _
  exact (hsub P.fields fun _ hf => hf).nodup P.unique

theorem itemOf_self (h : item ∈ items P) : itemOf P item.field.id = some item := by
  rw [itemOf]
  cases hfind : (items P).find? fun i => i.field.id = item.field.id with
  | none => exact absurd (List.find?_eq_none.mp hfind item h) (by simp)
  | some i =>
    have hid : i.field.id = item.field.id := by simpa using List.find?_some hfind
    exact congrArg some (List.inj_on_of_nodup_map items_nodup (List.mem_of_find?_eq_some hfind) h hid)

theorem itemOf_eq_some (h : itemOf P id = some item) : item ∈ items P ∧ item.field.id = id :=
  ⟨List.mem_of_find?_eq_some h,by simpa using List.find?_some h⟩

/-! ### The invariant -/

/-- The read is reported to close a cycle. -/
def Reported (reports : List (FieldId × Problem)) (a b : FieldId) : Prop := (a,.cycle b) ∈ reports ∨ (a,.lazyCycle b) ∈ reports

def Closed (P : Program) (m : Machine F) (reports : List (FieldId × Problem)) : List FieldId → Prop
  | [] => True
  | a :: rest => (∀ b, Reads P m a b → b ∈ rest ∨ Reported reports a b) ∧ Closed P m reports rest

structure Settled (P : Program) (m : Machine F) (s : State F) (order : List FieldId) : Prop where
  finished : ∀ k, s.state k = .finished ↔ k ∈ order
  nodup : order.Nodup
  closed : Closed P m s.reports order
  unset : ∀ k, k ∉ order → s.value k = none
  sound : ∀ k v, s.value k = some v → Denotes P m k v
  complete : ∀ k ∈ order, ∀ v, Denotes P m k v → s.value k = some v

structure Grows (s t : State F) (order order' : List FieldId) : Prop where
  order : order ⊆ order'
  under : ∀ k, t.state k = .evaluating ↔ s.state k = .evaluating
  begun : ∀ k, s.state k ≠ .pending → t.state k ≠ .pending
  reports : s.reports ⊆ t.reports

theorem Grows.refl (s : State F) (order : List FieldId) : Grows s s order order :=
  ⟨List.Subset.refl _,fun _ => Iff.rfl,fun _ h => h,List.Subset.refl _⟩

theorem Grows.trans {u : State F} {order'' : List FieldId} (h : Grows s t order order') (h' : Grows t u order' order'') :
    Grows s u order order'' :=
  ⟨List.Subset.trans h.order h'.order,fun k => (h'.under k).trans (h.under k),fun k hk => h'.begun k (h.begun k hk),
    List.Subset.trans h.reports h'.reports⟩

theorem Reported.mono {reports reports' : List (FieldId × Problem)} {a b : FieldId} (h : Reported reports a b)
    (hsub : reports ⊆ reports') : Reported reports' a b := h.imp (fun h => hsub h) fun h => hsub h

theorem Closed.mono {reports reports' : List (FieldId × Problem)} (hsub : reports ⊆ reports') (h : Closed P m reports order) :
    Closed P m reports' order := by
  induction order with
  | nil => trivial
  | cons a rest ih => exact ⟨fun b hb => (h.1 b hb).imp_right fun hr => hr.mono hsub,ih h.2⟩

theorem Settled.report (h : Settled P m s order) (item : Item) (problem : Problem) : Settled P m (s.report item problem) order :=
  ⟨h.finished,h.nodup,h.closed.mono (List.subset_append_left _ _),h.unset,h.sound,h.complete⟩

theorem grows_report (s : State F) (order : List FieldId) (item : Item) (problem : Problem) :
    Grows s (s.report item problem) order order :=
  ⟨List.Subset.refl _,fun _ => Iff.rfl,fun _ hk => hk,List.subset_append_left _ _⟩

theorem Settled.kept (h : Settled P m s order) (h' : Settled P m t order') (hg : Grows s t order order') (hid : id ∈ order) :
    t.value id = s.value id := by
  cases hv : s.value id with
  | some v => exact h'.complete id (hg.order hid) v (h.sound id v hv)
  | none =>
    cases hw : t.value id with
    | none => rfl
    | some w => exact (h.complete id hid w (h'.sound id w hw)).symm.trans hv

theorem Settled.value_of_evaluating (h : Settled P m s order) (hid : s.state id = .evaluating) : s.value id = none :=
  h.unset id fun hk => nomatch hid.symm.trans ((h.finished id).mpr hk)

/-- A const with reads that are over is over with the value it denotes. -/
theorem Settled.close (h : Settled P m s order) (hitem : itemOf P id = some item) (hid : s.state id = .evaluating)
    (hreads : ∀ b ∈ follows P m item, b ∈ order ∨ s.state b = .evaluating ∧ Reported s.reports id b)
    (hunder : ∀ g, s.state g = .evaluating → g = id ∨ Relation.TransGen (Reads P m) g id)
    (hstate : ∀ k, t.state k = if k = id then .finished else s.state k) (hreports : s.reports ⊆ t.reports)
    (hvalue : ∀ k, t.value k = if k = id then constant P m s.value item else s.value k) : Settled P m t (id :: order) := by
  have hnew : id ∉ order := fun hk => nomatch hid.symm.trans ((h.finished id).mpr hk)
  refine ⟨fun k => ?_,List.nodup_cons.mpr ⟨hnew,h.nodup⟩,⟨?_,h.closed.mono hreports⟩,fun k hk => ?_,fun k v hv => ?_,?_⟩
  · rw [hstate,List.mem_cons]
    split_ifs with hk
    · exact ⟨fun _ => .inl hk,fun _ => rfl⟩
    · rw [h.finished k]
      exact ⟨.inr,fun hm => hm.resolve_left hk⟩
  · rintro b ⟨item',hitem',hb⟩
    cases hitem.symm.trans hitem'
    exact (hreads b hb).imp_right fun hr => hr.2.mono hreports
  · have hne : k ≠ id ∧ k ∉ order := by simpa using hk
    rw [hvalue,if_neg hne.1]
    exact h.unset k hne.2
  · rw [hvalue] at hv
    split_ifs at hv with hk
    · exact hk ▸ Denotes.intro hitem h.sound hv
    · exact h.sound k v hv
  · intro k hk v hv
    rw [hvalue]
    split_ifs with hkid
    · subst hkid
      -- Every const it reads is over: one still under way would be on a cycle with it.
      cases hv with
      | intro hitem' henv hv =>
        cases hitem.symm.trans hitem'
        rw [← hv]
        refine constant_congr fun d hd => ?_
        obtain ⟨w,hw⟩ := constant_strict hv hd
        have hdw : Denotes P m d w := henv d w hw
        have hread : Reads P m k d := ⟨item,hitem,hd⟩
        rcases hreads d hd with hdo | ⟨hde,-⟩
        · exact (h.complete d hdo w hdw).trans hw.symm
        · rcases hunder d hde with rfl | hpath
          · exact absurd (Relation.TransGen.single hread) hdw.not_cycle
          · exact absurd (hpath.tail hread) hdw.not_cycle
    · exact h.complete k ((List.mem_cons.mp hk).resolve_left hkid) v hv

end Ens.Constants
