import Ens.Constants.Visits

/-! # Constants of a program

Evaluation ends with every const over. The values are those the consts denote, whatever the order the consts are declared in, and
every cycle of reads has a read that is reported.
-/
namespace Ens.Constants
open Relation
variable {F : Type} {P Q : Program} {m : Machine F} {s t u : State F} {order order' : List FieldId} {item : Item} {id : FieldId}
variable {visit : Visit F} {n : ℕ}

/-! ### Consts -/

theorem Settled.begin (h : Settled P m s order) (hs : s.state id = .pending) : Settled P m (s.mark id .evaluating) order := by
  refine ⟨fun k => ?_,h.nodup,h.closed,h.unset,h.sound,h.complete⟩
  rw [State.mark]
  dsimp only
  split_ifs with hk
  · subst hk
    exact ⟨by rintro ⟨⟩,fun hm => by cases hs.symm.trans ((h.finished k).mpr hm)⟩
  · exact h.finished k

theorem under_begin (hunder : ∀ g, s.state g = .evaluating → TransGen (Reads P m) g id) : Under P m (s.mark id .evaluating) id := by
  refine ⟨if_pos rfl,fun g hg => ?_⟩
  by_cases hk : g = id
  · exact .inl hk
  · exact .inr (hunder g ((if_neg hk).symm.trans hg))

/-- From before a const is begun to after it is over, the consts under way are the same. -/
theorem grows_close (hs : s.state id = .pending) (hg : Grows (s.mark id .evaluating) t order order')
    (hstate : ∀ k, u.state k = if k = id then .finished else t.state k) (hreports : t.reports ⊆ u.reports) :
    Grows s u order (id :: order') := by
  have hmark : ∀ k, k ≠ id → (s.mark id .evaluating).state k = s.state k := fun k hk => if_neg hk
  refine ⟨fun k hk => List.mem_cons_of_mem id (hg.order hk),fun k => ?_,fun k hk => ?_,fun r hr => hreports (hg.reports hr)⟩
  · rw [hstate]
    split_ifs with hk
    · rw [hk,hs]
      exact ⟨nofun,nofun⟩
    · rw [hg.under k,hmark k hk]
  · rw [hstate]
    split_ifs with hkid
    · exact nofun
    · exact hg.begun k (hmark k hkid ▸ hk)

theorem Followed.close {r : List FieldId} (h : Followed P m item.field.id r (s.mark item.field.id .evaluating) t order order')
    (hitem : itemOf P item.field.id = some item) (hs : s.state item.field.id = .pending) (hr : follows P m item ⊆ r)
    (hunder : ∀ g, s.state g = .evaluating → TransGen (Reads P m) g item.field.id)
    (hstate : ∀ k, u.state k = if k = item.field.id then .finished else t.state k) (hreports : t.reports ⊆ u.reports)
    (hvalue : ∀ k, u.value k = if k = item.field.id then constant P m t.value item else t.value k) :
    Settled P m u (item.field.id :: order') ∧ Grows s u order (item.field.id :: order') := by
  have hu : Under P m t item.field.id := (under_begin hunder).grows h.grows
  exact ⟨h.settled.close hitem hu.evaluating (fun b hb => h.ended b (hr hb)) hu.leads hstate hreports hvalue,
    grows_close hs h.grows hstate hreports⟩

theorem value_unchanged (h : Settled P m t order) (hid : t.state item.field.id = .evaluating) (hnone : constant P m t.value item = none)
    (k : FieldId) : t.value k = if k = item.field.id then constant P m t.value item else t.value k := by
  split_ifs with hk
  · rw [hnone,hk,h.value_of_evaluating hid]
  · rfl

theorem finish_spec (h : Settled P m t order) (hid : t.state item.field.id = .evaluating) (hlazy : item.field.isLazy = false)
    (hfamily : isConstantFamily item.field.type = true) {s : State F} (hs : s = finish m item (constantOf P m t.value item item.initializer,t)) :
    (∀ k, s.state k = if k = item.field.id then .finished else t.state k) ∧ t.reports ⊆ s.reports ∧
      ∀ k, s.value k = if k = item.field.id then constant P m t.value item else t.value k := by
  have hconstant : constant P m t.value item =
      (constantOf P m t.value item item.initializer).bind fun v => (fitDeclaredType m item.field.type v).toOption := by
    rw [constant,hlazy,hfamily]
    rfl
  rw [finish] at hs
  cases hc : constantOf P m t.value item item.initializer with
  | none =>
    rw [hc] at hs hconstant
    have hvalue := value_unchanged h hid hconstant
    subst hs
    exact ⟨fun _ => rfl,List.Subset.refl _,hvalue⟩
  | some v =>
    rw [hc] at hs hconstant
    dsimp only at hs
    cases hf : fitDeclaredType m item.field.type v with
    | ok fitted =>
      simp only [hf] at hs
      subst hs
      rw [Option.bind_some,hf] at hconstant
      exact ⟨fun _ => rfl,List.Subset.refl _,fun k => hconstant ▸ rfl⟩
    | error problem =>
      rw [Option.bind_some,hf] at hconstant
      have hvalue := value_unchanged h hid hconstant
      cases problem with
      | none =>
        simp only [hf] at hs
        subst hs
        exact ⟨fun _ => rfl,List.Subset.refl _,hvalue⟩
      | some problem =>
        simp only [hf] at hs
        subst hs
        exact ⟨fun _ => rfl,List.subset_append_left _ _,hvalue⟩

theorem settled_of_begun {visit : Visit F} (hvisit : visit item s = some s) (h : Settled P m s order) (hs : s.state item.field.id ≠ .pending)
    (he : s.state item.field.id ≠ .evaluating) : ∃ t order', visit item s = some t ∧ Settled P m t order' ∧ Grows s t order order' ∧
      item.field.id ∈ order' := by
  refine ⟨s,order,hvisit,h,Grows.refl s order,(h.finished _).mp ?_⟩
  cases hstate : s.state item.field.id with
  | pending => exact absurd hstate hs
  | evaluating => exact absurd hstate he
  | finished => rfl

theorem evaluateItem_settles (n : ℕ) : ∀ item ∈ items P, item.field.isLazy = false → Settles P m n (evaluateItem P m n) item := by
  induction n with
  | zero => exact fun _ _ _ s order _ hn => absurd hn (Nat.not_lt_zero _)
  | succ n ih =>
    intro item hitem hlazy s order h hn he hunder
    have hself := itemOf_self hitem
    by_cases hs : s.state item.field.id = .pending
    · have hcount : pendingCount P (s.mark item.field.id .evaluating) < n := by
        have hlt := pendingCount_mark hitem hs
        omega
      have hbegin := h.begin hs
      have hu := under_begin hunder
      simp only [evaluateItem,hs,ne_eq,not_true_eq_false,if_false]
      cases hfamily : isConstantFamily item.field.type with
      | false =>
        have hnone : constant P m (s.mark item.field.id .evaluating).value item = none := by rw [constant,hfamily,Bool.not_false,Bool.or_true]; rfl
        have hfollows : follows P m item ⊆ [] := by simp [follows,hlazy,hfamily]
        have hvalue := value_unchanged hbegin hu.evaluating hnone
        obtain ⟨hsettled,hgrows⟩ := (hbegin.followed item.field.id).close hself hs hfollows hunder
          (u := (s.mark item.field.id .evaluating).mark item.field.id .finished) (fun _ => rfl) (List.Subset.refl _) hvalue
        exact ⟨_,_,rfl,hsettled,hgrows,List.mem_cons_self⟩
      | true =>
        have hfollows : follows P m item = reads P m item item.initializer := by simp [follows,hlazy,hfamily]
        obtain ⟨t,order',heval,hf⟩ := evaluate_spec (e := item.initializer) ih hself (fun _ hd => hfollows ▸ hd) hbegin hu hcount
        obtain ⟨hstate,hreports,hvalue⟩ := finish_spec hf.settled (hu.grows hf.grows).evaluating hlazy hfamily rfl
        obtain ⟨hsettled,hgrows⟩ := hf.close hself hs (fun _ hd => hfollows ▸ hd) hunder hstate hreports hvalue
        exact ⟨_,_,by rw [heval]; rfl,hsettled,hgrows,List.mem_cons_self⟩
    · exact settled_of_begun (by simp [evaluateItem,hs]) h hs he

/-! ### Lazy consts -/

theorem followLazyReference_spec (hvisit : ∀ target ∈ items P, target.field.isLazy = true → Settles P m n visit target)
    (hi : itemOf P item.field.id = some item) {object : Expr} {name : Name} (hr : lazyRead P item object name ⊆ follows P m item)
    (h : Settled P m s order) (hu : Under P m s item.field.id) (hn : pendingCount P s < n) : ∃ t order',
      followLazyReference P visit item object name s = some t ∧
        Followed P m item.field.id (lazyRead P item object name) s t order order' := by
  rw [followLazyReference]
  rw [lazyRead] at hr ⊢
  cases href : lazyReference P item object name with
  | none => exact ⟨s,order,rfl,h.followed _⟩
  | some field =>
    rw [href] at hr
    dsimp only at hr ⊢
    cases ht : itemOf P field.id with
    | none => exact ⟨s,order,rfl,h.followed _⟩
    | some target =>
      rw [ht] at hr
      have hv := hvisit target (itemOf_eq_some ht).1 (lazyReference_some href ht)
      exact hv.read ht (hr List.mem_cons_self) hi h hu hn (.inr rfl)

theorem Followed.then {r r' : List FieldId} (h : Followed P m id r s t order order') (hu : Under P m s id) (hn : pendingCount P s < n)
    {f g : State F → Option (State F)} (hf : f s = some t)
    (hg : Settled P m t order' → Under P m t id → pendingCount P t < n → ∃ u order'', g t = some u ∧ Followed P m id r' t u order' order'') :
    ∃ u order'', (f s).bind g = some u ∧ Followed P m id (r ++ r') s u order order'' := by
  obtain ⟨u,order'',hgt,hfollowed⟩ := hg h.settled (hu.grows h.grows) (h.grows.pendingCount_lt hn)
  exact ⟨u,order'',by rw [hf,Option.bind_some,hgt],h.append hfollowed⟩

mutual

theorem walkLazyReferences_spec (hvisit : ∀ target ∈ items P, target.field.isLazy = true → Settles P m n visit target)
    (hi : itemOf P item.field.id = some item) : ∀ {e : Expr} {s : State F} {order : List FieldId}, lazyReads P item e ⊆ follows P m item →
    Settled P m s order → Under P m s item.field.id → pendingCount P s < n → ∃ t order',
      walkLazyReferences P visit item e s = some t ∧ Followed P m item.field.id (lazyReads P item e) s t order order'
  | .member object name, s, order, hr, h, hu, hn => by
    simp only [walkLazyReferences,lazyReads] at hr ⊢
    obtain ⟨hr,hr'⟩ := List.append_subset.mp hr
    obtain ⟨t,order',ht,hf⟩ := followLazyReference_spec hvisit hi hr h hu hn
    exact hf.then hu hn ht (walkLazyReferences_spec hvisit hi (e := object) hr')
  | .parenthesized inner, s, order, hr, h, hu, hn => by
    simp only [walkLazyReferences,lazyReads] at hr ⊢
    exact walkLazyReferences_spec hvisit hi hr h hu hn
  | .prefixed _ operand, s, order, hr, h, hu, hn => by
    simp only [walkLazyReferences,lazyReads] at hr ⊢
    exact walkLazyReferences_spec hvisit hi hr h hu hn
  | .binary _ left right, s, order, hr, h, hu, hn => by
    simp only [walkLazyReferences,lazyReads] at hr ⊢
    obtain ⟨hr,hr'⟩ := List.append_subset.mp hr
    obtain ⟨t,order',ht,hf⟩ := walkLazyReferences_spec hvisit hi (e := left) hr h hu hn
    exact hf.then hu hn ht (walkLazyReferences_spec hvisit hi (e := right) hr')
  | .genericName head, s, order, hr, h, hu, hn => by
    simp only [walkLazyReferences,lazyReads] at hr ⊢
    exact walkLazyReferences_spec hvisit hi hr h hu hn
  | .runtime _ children, s, order, hr, h, hu, hn => by
    simp only [walkLazyReferences,lazyReads] at hr ⊢
    exact walkChildren_spec hvisit hi hr h hu hn
  | .literal _, s, order, _, h, _, _ | .identifier _, s, order, _, h, _, _ | .this, s, order, _, h, _, _ | .lambda, s, order, _, h, _, _ => by
    simp only [walkLazyReferences,lazyReads]
    exact ⟨s,order,rfl,h.followed _⟩

theorem walkChildren_spec (hvisit : ∀ target ∈ items P, target.field.isLazy = true → Settles P m n visit target)
    (hi : itemOf P item.field.id = some item) : ∀ {es : List Expr} {s : State F} {order : List FieldId},
    lazyReadsEach P item es ⊆ follows P m item → Settled P m s order → Under P m s item.field.id → pendingCount P s < n → ∃ t order',
      walkChildren P visit item es s = some t ∧ Followed P m item.field.id (lazyReadsEach P item es) s t order order'
  | [], s, order, _, h, _, _ => by
    simp only [walkChildren,lazyReadsEach]
    exact ⟨s,order,rfl,h.followed _⟩
  | e :: es, s, order, hr, h, hu, hn => by
    simp only [walkChildren,lazyReadsEach] at hr ⊢
    obtain ⟨hr,hr'⟩ := List.append_subset.mp hr
    obtain ⟨t,order',ht,hf⟩ := walkLazyReferences_spec hvisit hi (e := e) hr h hu hn
    exact hf.then hu hn ht (walkChildren_spec hvisit hi hr')

end

theorem walkLazyItem_settles (n : ℕ) : ∀ item ∈ items P, item.field.isLazy = true → Settles P m n (walkLazyItem P n) item := by
  induction n with
  | zero => exact fun _ _ _ s order _ hn => absurd hn (Nat.not_lt_zero _)
  | succ n ih =>
    intro item hitem hlazy s order h hn he hunder
    have hself := itemOf_self hitem
    by_cases hs : s.state item.field.id = .pending
    · have hcount : pendingCount P (s.mark item.field.id .evaluating) < n := by
        have hlt := pendingCount_mark hitem hs
        omega
      have hbegin := h.begin hs
      have hu := under_begin hunder
      have hfollows : follows P m item = lazyReads P item item.initializer := by simp [follows,hlazy]
      obtain ⟨t,order',hwalk,hf⟩ := walkLazyReferences_spec (e := item.initializer) ih hself (fun _ hd => hfollows ▸ hd) hbegin hu hcount
      have hnone : constant P m t.value item = none := by simp [constant,hlazy]
      have hvalue := value_unchanged hf.settled (hu.grows hf.grows).evaluating hnone
      obtain ⟨hsettled,hgrows⟩ := hf.close hself hs (fun _ hd => hfollows ▸ hd) hunder (u := t.mark item.field.id .finished) (fun _ => rfl)
        (List.Subset.refl _) hvalue
      refine ⟨t.mark item.field.id .finished,_,?_,hsettled,hgrows,List.mem_cons_self⟩
      simp only [walkLazyItem,hs,ne_eq,not_true_eq_false,if_false,hwalk,Option.map_some]
    · exact settled_of_begun (by simp [walkLazyItem,hs]) h hs he

/-! ### Programs -/

theorem visitItem_settles (hitem : item ∈ items P) : Settles P m n (visitItem P m n) item := by
  intro s order h hn he hunder
  rw [visitItem]
  split_ifs with hlazy
  · exact walkLazyItem_settles n item hitem hlazy s order h hn he hunder
  · exact evaluateItem_settles n item hitem (Bool.eq_false_iff.mpr hlazy) s order h hn he hunder

theorem evaluateEach_spec {each : List Item} (hsub : each ⊆ items P) (h : Settled P m s order) (hn : pendingCount P s < n)
    (hidle : ∀ g, s.state g ≠ .evaluating) : ∃ t order', evaluateEach P m n each s = some t ∧ Settled P m t order' ∧
      order ⊆ order' ∧ ∀ item ∈ each, item.field.id ∈ order' := by
  induction each generalizing s order with
  | nil => exact ⟨s,order,rfl,h,List.Subset.refl _,nofun⟩
  | cons item each ih =>
    obtain ⟨t,order',ht,hsettled,hgrows,hmem⟩ := visitItem_settles (hsub List.mem_cons_self) s order h hn (hidle _) fun g hg => absurd hg (hidle g)
    obtain ⟨u,order'',hu,hsettled',hsub',hall⟩ := ih (fun i hi => hsub (List.mem_cons_of_mem item hi)) hsettled (hgrows.pendingCount_lt hn)
      fun g hg => hidle g ((hgrows.under g).mp hg)
    refine ⟨u,order'',?_,hsettled',List.Subset.trans hgrows.order hsub',List.forall_mem_cons.mpr ⟨hsub' hmem,hall⟩⟩
    rw [evaluateEach,ht,Option.bind_some,hu]

theorem evaluateProgram_spec (P : Program) (m : Machine F) : ∃ s order, evaluateProgram P m = some s ∧ Settled P m s order ∧
    ∀ item ∈ items P, item.field.id ∈ order := by
  have hstart : Settled P m ⟨fun _ => .pending,fun _ => none,[]⟩ [] := ⟨fun k => ⟨nofun,nofun⟩,List.nodup_nil,trivial,fun _ _ => rfl,nofun,nofun⟩
  obtain ⟨s,order,hs,hsettled,-,hall⟩ := evaluateEach_spec (n := (items P).length + 1) (List.Subset.refl (items P)) hstart
    (Nat.lt_succ_of_le List.countP_le_length) nofun
  exact ⟨s,order,hs,hsettled,hall⟩

end Ens.Constants
