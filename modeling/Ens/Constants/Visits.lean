import Ens.Constants.Settled

/-! # Visits

What one expression, one const and a whole program leave settled. A visit goes deeper only from a const not begun before, so there
are never more visits inside each other than consts.
-/
namespace Ens.Constants
open Relation
variable {F : Type} {P : Program} {m : Machine F} {s t u : State F} {order order' order'' : List FieldId} {item target : Item} {id b : FieldId}
variable {field : Field} {visit : Visit F} {n : ℕ} {object : Expr} {name : Name}

/-! ### Depth -/

def pendingCount (P : Program) (s : State F) : ℕ := (items P).countP fun item => s.state item.field.id = .pending

theorem pendingCount_le (h : ∀ k, s.state k ≠ .pending → t.state k ≠ .pending) : pendingCount P t ≤ pendingCount P s := by
  refine List.countP_mono_left fun item _ ht => ?_
  rw [decide_eq_true_eq] at ht ⊢
  exact not_not.mp fun hs => h _ hs ht

theorem countP_mark {items : List Item} (hitem : item ∈ items) (hs : s.state item.field.id = .pending) :
    items.countP (fun i => (s.mark item.field.id .evaluating).state i.field.id = .pending) <
      items.countP fun i => s.state i.field.id = .pending := by
  have hle : ∀ i : Item, (s.mark item.field.id .evaluating).state i.field.id = .pending → s.state i.field.id = .pending := by
    intro i hi
    rw [State.mark] at hi
    dsimp only at hi
    split_ifs at hi
    exact hi
  induction items with
  | nil => cases hitem
  | cons i items ih =>
    have hmono : items.countP (fun i => (s.mark item.field.id .evaluating).state i.field.id = .pending) ≤
        items.countP fun i => s.state i.field.id = .pending :=
      List.countP_mono_left fun i _ hi => decide_eq_true (hle i (of_decide_eq_true hi))
    rw [List.countP_cons,List.countP_cons]
    rcases List.mem_cons.mp hitem with rfl | hmem
    · have hbegun : (s.mark item.field.id .evaluating).state item.field.id ≠ .pending := by simp [State.mark]
      simp only [hbegun,hs,decide_false,decide_true,Bool.false_eq_true,if_false,if_true]
      omega
    · have hrest := ih hmem
      by_cases hi : (s.mark item.field.id .evaluating).state i.field.id = .pending
      · simp only [hi,hle i hi,decide_true,if_true]
        omega
      · simp only [hi,decide_false,Bool.false_eq_true,if_false]
        omega

theorem pendingCount_mark (hitem : item ∈ items P) (hs : s.state item.field.id = .pending) :
    pendingCount P (s.mark item.field.id .evaluating) < pendingCount P s := countP_mark hitem hs

/-! ### Reads of fields -/

theorem findStatic_mem {owner : Declared} (h : findStatic P owner name = some field) : field ∈ P.fields := List.mem_of_find?_eq_some h

theorem field_of_itemOf (h : itemOf P id = some item) : item.field ∈ P.fields := by
  obtain ⟨f,hf,hg⟩ := List.mem_filterMap.mp (itemOf_eq_some h).1
  exact gatherField_field hf hg ▸ hf

theorem resolveReference_ok (h : resolveReference P item object name = .ok field) (ht : itemOf P field.id = some target) :
    target.field.isLazy = false := by
  have hfield : field ∈ P.fields ∧ field.isLazy = false := by
    unfold resolveReference at h
    split at h
    · split at h
      · cases h
      · split at h <;> cases h
    · split at h
      · cases h
      · split at h
        · cases h
        · next hfind =>
          split_ifs at h with hlazy
          cases h
          exact ⟨findStatic_mem hfind,Bool.eq_false_iff.mpr hlazy⟩
  have hsame : target.field = field := List.inj_on_of_nodup_map P.unique (field_of_itemOf ht) hfield.1 (itemOf_eq_some ht).2
  rw [hsame,hfield.2]

theorem lazyReference_some (h : lazyReference P item object name = some field) (ht : itemOf P field.id = some target) :
    target.field.isLazy = true := by
  obtain ⟨hsome,hlazy⟩ := Option.filter_eq_some_iff.mp h
  have hid : field.id = target.field.id := (itemOf_eq_some ht).2.symm
  have hsame : field = target.field := by
    split at hsome
    · split_ifs at hsome with ho
      rw [inheritedOrOwnField] at hsome
      split at hsome
      · cases hsome
      · next f hfind =>
        split_ifs at hsome with hp
        cases hsome
        exact P.shared _ field (List.mem_reverse.mp (List.mem_of_find?_eq_some hfind)) _ (field_of_itemOf ht) hid
    · obtain ⟨owner,-,hfind⟩ := Option.bind_eq_some_iff.mp hsome
      exact List.inj_on_of_nodup_map P.unique (findStatic_mem hfind) (field_of_itemOf ht) hid
    · cases hsome
  exact hsame ▸ hlazy

/-! ### Expressions -/

structure Under (P : Program) (m : Machine F) (s : State F) (id : FieldId) : Prop where
  evaluating : s.state id = .evaluating
  leads : ∀ g, s.state g = .evaluating → g = id ∨ TransGen (Reads P m) g id

theorem Under.grows (h : Under P m s id) (hg : Grows s t order order') : Under P m t id :=
  ⟨(hg.under id).mpr h.evaluating,fun g hge => h.leads g ((hg.under g).mp hge)⟩

/-- A visit of a const leaves it settled, if no more consts than a depth are left to begin. -/
def Settles (P : Program) (m : Machine F) (n : ℕ) (visit : Visit F) (item : Item) : Prop :=
  ∀ s order, Settled P m s order → pendingCount P s < n → s.state item.field.id ≠ .evaluating →
    (∀ g, s.state g = .evaluating → TransGen (Reads P m) g item.field.id) →
      ∃ t order', visit item s = some t ∧ Settled P m t order' ∧ Grows s t order order' ∧ item.field.id ∈ order'

structure Followed (P : Program) (m : Machine F) (id : FieldId) (reads : List FieldId) (s t : State F) (order order' : List FieldId) :
    Prop where
  settled : Settled P m t order'
  grows : Grows s t order order'
  ended : ∀ b ∈ reads, b ∈ order' ∨ t.state b = .evaluating ∧ Reported t.reports id b

theorem Settled.followed (h : Settled P m s order) (id : FieldId) : Followed P m id [] s s order order := ⟨h,Grows.refl s order,nofun⟩

theorem Followed.append {r r' : List FieldId} (h : Followed P m id r s t order order') (h' : Followed P m id r' t u order' order'') :
    Followed P m id (r ++ r') s u order order'' := by
  refine ⟨h'.settled,h.grows.trans h'.grows,fun b hb => ?_⟩
  rcases List.mem_append.mp hb with hb | hb
  · exact (h.ended b hb).imp (fun ho => h'.grows.order ho) fun he => ⟨(h'.grows.under b).mpr he.1,he.2.mono h'.grows.reports⟩
  · exact h'.ended b hb

theorem Followed.report {r : List FieldId} (h : Followed P m id r s t order order') (item : Item) (problem : Problem) :
    Followed P m id r s (t.report item problem) order order' :=
  ⟨h.settled.report item problem,h.grows.trans (grows_report t order' item problem),
    fun b hb => (h.ended b hb).imp_right fun he => ⟨he.1,he.2.mono (List.subset_append_left _ _)⟩⟩

/-- One read: of a const under way it is reported, and any other is visited. -/
theorem Settles.read (hv : Settles P m n visit target) (ht : itemOf P b = some target) (hb : b ∈ follows P m item)
    (hi : itemOf P item.field.id = some item) (h : Settled P m s order) (hu : Under P m s item.field.id) (hn : pendingCount P s < n)
    {problem : Problem} (hp : problem = .cycle b ∨ problem = .lazyCycle b) :
    ∃ t order', (if s.state target.field.id = .evaluating then some (s.report item problem) else visit target s) = some t ∧
      Followed P m item.field.id [b] s t order order' := by
  have hid : target.field.id = b := (itemOf_eq_some ht).2
  have hread : Reads P m item.field.id b := ⟨item,hi,hb⟩
  split_ifs with hs
  · refine ⟨_,order,rfl,h.report item problem,grows_report s order item problem,List.forall_mem_singleton.mpr (.inr ⟨hid ▸ hs,?_⟩)⟩
    have hnew : (item.field.id,problem) ∈ (s.report item problem).reports := List.mem_append_right _ List.mem_cons_self
    rcases hp with rfl | rfl
    · exact .inl hnew
    · exact .inr hnew
  · have hleads : ∀ g, s.state g = .evaluating → TransGen (Reads P m) g target.field.id := fun g hg => by
      rw [hid]
      rcases hu.leads g hg with rfl | hpath
      · exact .single hread
      · exact hpath.tail hread
    obtain ⟨t,order',hvisit,hsettled,hgrows,hmem⟩ := hv s order h hn hs hleads
    exact ⟨t,order',hvisit,hsettled,hgrows,List.forall_mem_singleton.mpr (.inl (hid ▸ hmem))⟩

theorem Followed.value {r r' : List FieldId} (h : Followed P m id r s t order order') (h' : Followed P m id r' t u order' order'')
    {d : FieldId} (hd : d ∈ r) : t.value d = u.value d := by
  rcases h.ended d hd with ho | ⟨he,-⟩
  · exact (h.settled.kept h'.settled h'.grows ho).symm
  · rw [h.settled.value_of_evaluating he,h'.settled.value_of_evaluating ((h'.grows.under d).mpr he)]

theorem Grows.pendingCount_lt (hg : Grows s t order order') (hn : pendingCount P s < n) : pendingCount P t < n :=
  Nat.lt_of_le_of_lt (pendingCount_le hg.begun) hn

theorem settle_spec (item : Item) {r : List FieldId} (h : Followed P m id r s t order order') (computed : Except Problem (Value F)) :
    ∃ u, settle item computed t = (computed.toOption,u) ∧ u.value = t.value ∧ Followed P m id r s u order order' := by
  cases computed with
  | ok v => exact ⟨t,rfl,rfl,h⟩
  | error problem => exact ⟨_,rfl,rfl,h.report item problem⟩

/-- The value of an expression is the one it has with the values that are settled when it is evaluated. -/
theorem evaluate_spec (hvisit : ∀ target ∈ items P, target.field.isLazy = false → Settles P m n visit target)
    (hi : itemOf P item.field.id = some item) : ∀ {e : Expr} {s : State F} {order : List FieldId}, reads P m item e ⊆ follows P m item →
    Settled P m s order → Under P m s item.field.id → pendingCount P s < n → ∃ t order',
      evaluate P m visit item e s = some (constantOf P m t.value item e,t) ∧ Followed P m item.field.id (reads P m item e) s t order order'
  | .literal token, s, order, _, h, _, _ => by
    obtain ⟨u,hu,-,hf⟩ := settle_spec item (h.followed item.field.id) (evaluateLiteral m token)
    exact ⟨u,order,congrArg some hu,hf⟩
  | .parenthesized inner, _, _, hr, h, hu, hn => evaluate_spec hvisit hi (e := inner) hr h hu hn
  | .prefixed operator operand, s, order, hr, h, hu, hn => by
    have hnone : ∀ problem, ∃ t order', some (none,s.report item problem) = some ((none : Option (Value F)),t) ∧
        Followed P m item.field.id [] s t order order' := fun problem => ⟨_,order,rfl,(h.followed _).report item problem⟩
    rw [evaluate]
    cases hs : operator.isSign with
    | false =>
      simp only [constantOf,reads,hs]
      exact hnone _
    | true =>
      cases hb : negatedBeyond m operator operand with
      | some text =>
        simp only [constantOf,reads,hs,hb]
        exact hnone _
      | none =>
        simp only [constantOf,reads,hs,hb] at hr ⊢
        obtain ⟨t,order',he,hf⟩ := evaluate_spec hvisit hi (e := operand) hr h hu hn
        rw [he]
        cases hc : constantOf P m t.value item operand with
        | none => exact ⟨t,order',by simp [hc],hf⟩
        | some v =>
          obtain ⟨w,hw,hval,hf'⟩ := settle_spec item hf (applySign m operator v)
          exact ⟨w,order',by simp [hval,hc,hw],hf'⟩
  | .binary operator left right, s, order, hr, h, hu, hn => by
    rw [evaluate]
    cases hc : isConstantOperator operator with
    | false =>
      simp only [constantOf,reads,hc]
      exact ⟨_,order,rfl,(h.followed _).report item _⟩
    | true =>
      simp only [constantOf,reads,hc] at hr ⊢
      obtain ⟨hl,hr⟩ := List.append_subset.mp hr
      obtain ⟨t,order',het,hft⟩ := evaluate_spec hvisit hi (e := left) hl h hu hn
      obtain ⟨u,order'',heu,hfu⟩ := evaluate_spec hvisit hi (e := right) hr hft.settled (hu.grows hft.grows) (hft.grows.pendingCount_lt hn)
      have hf := hft.append hfu
      have hleft : constantOf P m t.value item left = constantOf P m u.value item left := constantOf_congr fun d hd => hft.value hfu hd
      rw [het]
      simp only [Bool.not_true,Bool.false_eq_true,if_false,if_true,Option.bind_some,heu,hleft]
      cases hl : constantOf P m u.value item left with
      | none => exact ⟨u,order'',by simp [hl],hf⟩
      | some l =>
        cases hr : constantOf P m u.value item right with
        | none => exact ⟨u,order'',by simp [hl,hr],hf⟩
        | some r =>
          obtain ⟨w,hw,hval,hf'⟩ := settle_spec item hf (combine m operator l r)
          exact ⟨w,order'',by simp [hval,hl,hr,hw],hf'⟩
  | .member object name, s, order, hr, h, hu, hn => by
    rw [evaluate]
    rw [reads] at hr ⊢
    simp only [constantOf]
    cases hres : resolveReference P item object name with
    | error problem => exact ⟨_,order,rfl,(h.followed _).report item problem⟩
    | ok field =>
      rw [hres] at hr
      dsimp only at hr ⊢
      rw [readField]
      cases ht : itemOf P field.id with
      | none => exact ⟨s,order,rfl,h.followed _⟩
      | some target =>
        rw [ht] at hr
        have hv := hvisit target (itemOf_eq_some ht).1 (resolveReference_ok hres ht)
        have hb : field.id ∈ follows P m item := hr List.mem_cons_self
        obtain ⟨t,order',hread,hf⟩ := hv.read ht hb hi h hu hn (.inl rfl)
        refine ⟨t,order',?_,hf⟩
        dsimp only [Option.isSome_some]
        rw [if_pos rfl]
        split_ifs at hread ⊢ with hs
        · cases hread
          have hnone : s.value field.id = none := h.value_of_evaluating ((itemOf_eq_some ht).2 ▸ hs)
          exact congrArg (fun v => some (v,_)) hnone.symm
        · rw [hread]
          rfl
  | .identifier name, _, order, _, h, _, _ => ⟨_,order,rfl,(h.followed _).report item _⟩
  | .runtime kind _, _, order, _, h, _, _ => ⟨_,order,rfl,(h.followed _).report item _⟩
  | .genericName _, _, order, _, h, _, _ | .this, _, order, _, h, _, _ | .lambda, _, order, _, h, _, _ =>
    ⟨_,order,rfl,(h.followed _).report item _⟩

end Ens.Constants
