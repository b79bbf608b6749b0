import Ens.Reach.Walk

/-! # The walk marks the least closed set

Every operation only adds. A class allocated and a call dispatched are combined by whichever is found
second, so no pair is missed in any order.
-/
set_option linter.all false
namespace Ens.Reach
variable {T : Type} {src : Source T} {library : Bool} {w v : Walk T} {s f key : Symbol} {t : T} {d : Dispatch T}
variable {k : ℕ}

/-! ### Adding -/

structure Grew (w v : Walk T) : Prop where
  fresh : ∃ l, v.reached = w.reached ++ l ∧ v.pending = w.pending ++ l
  descriptors : ∀ t ∈ w.descriptors, t ∈ v.descriptors
  instantiated : ∀ t ∈ w.instantiated, t ∈ v.instantiated
  dispatched : ∀ d ∈ w.dispatched, d ∈ v.dispatched
  keptSlots : ∀ key ∈ w.keptSlots, key ∈ v.keptSlots
  keptImplementations : ∀ f ∈ w.keptImplementations, f ∈ v.keptImplementations

theorem Grew.refl : Grew w w := ⟨⟨[],by simp⟩,fun _ h => h,fun _ h => h,fun _ h => h,fun _ h => h,fun _ h => h⟩

theorem Grew.trans {x : Walk T} (h : Grew w v) (h' : Grew v x) : Grew w x := by
  obtain ⟨l,hr,hp⟩ := h.fresh
  obtain ⟨l',hr',hp'⟩ := h'.fresh
  exact ⟨⟨l ++ l',by rw [hr',hr,List.append_assoc],by rw [hp',hp,List.append_assoc]⟩,fun t ht => h'.descriptors t (h.descriptors t ht),
    fun t ht => h'.instantiated t (h.instantiated t ht),fun d hd => h'.dispatched d (h.dispatched d hd),
    fun key hk => h'.keptSlots key (h.keptSlots key hk),fun f hf => h'.keptImplementations f (h.keptImplementations f hf)⟩

theorem Grew.reached (h : Grew w v) (hs : s ∈ w.reached) : s ∈ v.reached := by
  obtain ⟨l,hr,-⟩ := h.fresh
  rw [hr]
  exact List.mem_append_left l hs

section
variable {A : Type} {op : Walk T → A → Walk T} {l : List A}

theorem foldl_grew (h : ∀ w a, Grew w (op w a)) : Grew w (l.foldl op w) := by
  induction l generalizing w with
  | nil => exact .refl
  | cons a l ih => exact (h w a).trans ih

/-- What an operation does for one item stays done for every item of a list. -/
theorem foldl_done {P : A → Walk T → Prop} (hg : ∀ w a, Grew w (op w a)) (hdone : ∀ w, ∀ a ∈ l, P a (op w a))
    (hmono : ∀ a w v, Grew w v → P a w → P a v) : ∀ a ∈ l, P a (l.foldl op w) := by
  induction l generalizing w with
  | nil => exact nofun
  | cons a l ih =>
    intro x hx
    rcases List.mem_cons.mp hx with rfl | hx
    · exact hmono x (op w x) _ (foldl_grew hg) (hdone w x (List.mem_cons_self ..))
    · exact ih (fun w y hy => hdone w y (List.mem_cons_of_mem a hy)) x hx

theorem foldl_keeps {I : Walk T → Prop} (h : ∀ w, ∀ a ∈ l, I w → I (op w a)) (hw : I w) : I (l.foldl op w) := by
  induction l generalizing w with
  | nil => exact hw
  | cons a l ih => exact ih (fun w x hx => h w x (List.mem_cons_of_mem a hx)) (h w a (List.mem_cons_self ..) hw)

end

/-! ### What each operation adds -/

/-- A symbol that has a body is reached. -/
def Reached (src : Source T) (w : Walk T) (s : Symbol) : Prop := (src.bodyOf s).isSome → s ∈ w.reached

theorem Reached.mono (hg : Grew w v) (h : Reached src w s) : Reached src v s := fun hb => hg.reached (h hb)

theorem reach_grew : Grew w (w.reach src s) := by
  unfold Walk.reach
  split
  · exact .refl
  · split
    · exact ⟨⟨[s],rfl,rfl⟩,fun _ h => h,fun _ h => h,fun _ h => h,fun _ h => h,fun _ h => h⟩
    · exact .refl

theorem reach_reached : Reached src (w.reach src s) s := by
  intro hb
  unfold Walk.reach
  rw [if_pos hb]
  split
  · assumption
  · exact List.mem_append_right _ (List.mem_singleton_self s)

theorem keep_grew : Grew w (w.keep key f) := by
  unfold Walk.keep
  split
  · exact .refl
  · exact ⟨⟨[],by simp⟩,fun _ h => h,fun _ h => h,fun _ h => h,fun _ h => List.mem_append_left _ h,fun _ h => List.mem_append_left _ h⟩

theorem keep_kept : key ∈ (w.keep key f).keptSlots := by
  unfold Walk.keep
  split
  · assumption
  · exact List.mem_append_right _ (List.mem_singleton_self key)

theorem reach_frame : (w.reach src s).instantiated = w.instantiated ∧ (w.reach src s).dispatched = w.dispatched ∧
    (w.reach src s).descriptors = w.descriptors ∧ (w.reach src s).keptSlots = w.keptSlots ∧
    (w.reach src s).keptImplementations = w.keptImplementations := by
  unfold Walk.reach
  split
  · exact ⟨rfl,rfl,rfl,rfl,rfl⟩
  · split <;> exact ⟨rfl,rfl,rfl,rfl,rfl⟩

theorem keep_frame : (w.keep key f).instantiated = w.instantiated ∧ (w.keep key f).dispatched = w.dispatched ∧
    (w.keep key f).descriptors = w.descriptors ∧ (w.keep key f).reached = w.reached := by
  unfold Walk.keep
  split <;> exact ⟨rfl,rfl,rfl,rfl⟩

variable [DecidableEq T]

/-- A slot a call reads is kept, and what it holds reached. -/
def Selected (src : Source T) (w : Walk T) (t : T) (d : Dispatch T) : Prop :=
  ∀ key f, Holds src t d key f → key ∈ w.keptSlots ∧ Reached src w f

theorem Selected.mono (hg : Grew w v) (h : Selected src w t d) : Selected src v t d := fun key f hh =>
  ⟨hg.keptSlots key (h key f hh).1,(h key f hh).2.mono hg⟩

theorem select_cases : (w.select src t d = w ∧ ∀ key f, ¬ Holds src t d key f) ∨
    ∃ key f, Holds src t d key f ∧ (∀ key' f', Holds src t d key' f' → key' = key ∧ f' = f) ∧
      w.select src t d = (w.keep key f).reach src f := by
  unfold Walk.select
  split
  · rename_i hp
    refine .inl ⟨rfl,?_⟩
    rintro key f ⟨plan,hplan,-⟩
    rw [hp] at hplan
    cases hplan
  · rename_i plan hp
    split
    · rename_i hb
      split
      · rename_i hs
        refine .inl ⟨rfl,?_⟩
        rintro key f ⟨plan',hplan,-,hslot,-⟩
        cases hp.symm.trans hplan
        rw [hs] at hslot
        cases hslot
      · rename_i f hs
        refine .inr ⟨_,f,⟨plan,hp,(isBelow_iff hp).mp hb,hs,rfl⟩,?_,rfl⟩
        rintro key' f' ⟨plan',hplan,-,hslot,hkey⟩
        cases hp.symm.trans hplan
        exact ⟨hkey,Option.some.inj (hslot.symm.trans hs)⟩
    · rename_i hb
      refine .inl ⟨rfl,?_⟩
      rintro key f ⟨plan',hplan,hbelow,-⟩
      cases hp.symm.trans hplan
      exact hb ((isBelow_iff hp).mpr hbelow)

theorem select_grew : Grew w (w.select src t d) := by
  obtain ⟨h,-⟩ | ⟨key,f,-,-,h⟩ : w.select src t d = w ∧ _ ∨ _ := select_cases
  · rw [h]
    exact .refl
  · rw [h]
    exact keep_grew.trans reach_grew

theorem select_selected : Selected src (w.select src t d) t d := by
  intro key f hh
  obtain ⟨-,h⟩ | ⟨key',f',-,hu,h⟩ : w.select src t d = w ∧ _ ∨ _ := select_cases
  · exact absurd hh (h key f)
  · obtain ⟨rfl,rfl⟩ := hu key f hh
    rw [h]
    exact ⟨reach_grew.keptSlots _ keep_kept,reach_reached⟩

theorem select_frame : (w.select src t d).instantiated = w.instantiated ∧ (w.select src t d).dispatched = w.dispatched ∧
    (w.select src t d).descriptors = w.descriptors := by
  have hkept {key f : Symbol} : ((w.keep key f).reach src f).instantiated = w.instantiated ∧
      ((w.keep key f).reach src f).dispatched = w.dispatched ∧ ((w.keep key f).reach src f).descriptors = w.descriptors :=
    ⟨reach_frame.1.trans keep_frame.1,reach_frame.2.1.trans keep_frame.2.1,reach_frame.2.2.1.trans keep_frame.2.2.1⟩
  obtain ⟨h,-⟩ | ⟨key,f,-,-,h⟩ : w.select src t d = w ∧ _ ∨ _ := select_cases
  · rw [h]
    exact ⟨rfl,rfl,rfl⟩
  · rw [h]
    exact hkept

/-! ### What every operation keeps -/

/-- What is reached has a body, and every kept slot is read by a call that was found, of a class that was. What kept
slots hold is reached. -/
structure Base (src : Source T) (w : Walk T) : Prop where
  nodup : w.reached.Nodup
  bodies : ∀ s ∈ w.reached, (src.bodyOf s).isSome
  kept : ∀ key ∈ w.keptSlots, ∃ t ∈ w.instantiated, ∃ d ∈ w.dispatched, ∃ f, Holds src t d key f ∧ f ∈ w.keptImplementations

def Implemented (src : Source T) (w : Walk T) : Prop := ∀ f ∈ w.keptImplementations, Reached src w f

theorem reach_base (h : Base src w) : Base src (w.reach src s) := by
  unfold Walk.reach
  split
  · exact h
  · rename_i hs
    split
    · rename_i hb
      refine ⟨?_,fun x hx => ?_,h.kept⟩
      · rw [List.nodup_append]
        refine ⟨h.nodup,List.pairwise_singleton _ s,fun x hx y hy => ?_⟩
        rintro rfl
        exact hs (List.mem_singleton.mp hy ▸ hx)
      · rcases List.mem_append.mp hx with hx | hx
        · exact h.bodies x hx
        · rw [List.mem_singleton.mp hx]
          exact hb
    · exact h

omit [DecidableEq T] in
theorem reach_implemented (h : Implemented src w) : Implemented src (w.reach src s) := by
  intro f hf
  rw [reach_frame.2.2.2.2] at hf
  exact (h f hf).mono reach_grew

theorem select_base (h : Base src w) (ht : t ∈ w.instantiated) (hd : d ∈ w.dispatched) : Base src (w.select src t d) := by
  obtain ⟨heq,-⟩ | ⟨key,f,hh,-,heq⟩ : w.select src t d = w ∧ _ ∨ _ := select_cases
  · rwa [heq]
  · rw [heq]
    refine reach_base ?_
    unfold Walk.keep
    split
    · exact h
    · refine ⟨h.nodup,h.bodies,fun key' hk => ?_⟩
      rcases List.mem_append.mp hk with hk | hk
      · obtain ⟨t',ht',d',hd',f',hh',hf'⟩ := h.kept key' hk
        exact ⟨t',ht',d',hd',f',hh',List.mem_append_left _ hf'⟩
      · rw [List.mem_singleton.mp hk]
        exact ⟨t,ht,d,hd,f,hh,List.mem_append_right _ (List.mem_singleton_self f)⟩

theorem select_implemented (h : Implemented src w) : Implemented src (w.select src t d) := by
  obtain ⟨heq,-⟩ | ⟨key,f,-,-,heq⟩ : w.select src t d = w ∧ _ ∨ _ := select_cases
  · rwa [heq]
  · rw [heq]
    intro x hx
    rw [reach_frame.2.2.2.2,Walk.keep] at hx
    split at hx
    · exact (h x hx).mono (keep_grew.trans reach_grew)
    · rcases List.mem_append.mp hx with hx | hx
      · exact (h x hx).mono (keep_grew.trans reach_grew)
      · rw [List.mem_singleton.mp hx]
        exact reach_reached

/-! ### Descriptors -/

omit [DecidableEq T] in
theorem reachImplementation_grew : Grew w (w.reachImplementation src f) := by
  have hadd : Grew w { w with keptImplementations := w.keptImplementations ++ [f] } :=
    ⟨⟨[],by simp⟩,fun _ h => h,fun _ h => h,fun _ h => h,fun _ h => h,fun _ h => List.mem_append_left _ h⟩
  exact hadd.trans reach_grew

omit [DecidableEq T] in
theorem reachImplementation_done : f ∈ (w.reachImplementation src f).keptImplementations ∧ Reached src (w.reachImplementation src f) f := by
  refine ⟨?_,reach_reached⟩
  rw [Walk.reachImplementation,reach_frame.2.2.2.2]
  exact List.mem_append_right _ (List.mem_singleton_self f)

omit [DecidableEq T] in
theorem keepEverySlot_frame {plan : Plan T} : (w.keepEverySlot src plan).instantiated = w.instantiated ∧
    (w.keepEverySlot src plan).dispatched = w.dispatched ∧ (w.keepEverySlot src plan).descriptors = w.descriptors := by
  refine foldl_keeps (I := fun v => v.instantiated = w.instantiated ∧ v.dispatched = w.dispatched ∧ v.descriptors = w.descriptors)
    (fun v f _ ⟨hi,hd,hn⟩ => ?_) ⟨rfl,rfl,rfl⟩
  obtain ⟨hi',hd',hn',-⟩ : (({ v with keptImplementations := v.keptImplementations ++ [f] } : Walk T).reach src f).instantiated =
      v.instantiated ∧ _ := reach_frame
  exact ⟨hi'.trans hi,hd'.trans hd,hn'.trans hn⟩

omit [DecidableEq T] in
theorem keepEverySlot_grew {plan : Plan T} : Grew w (w.keepEverySlot src plan) := foldl_grew fun _ _ => reachImplementation_grew

/-- What is asked of a descriptor that was named. -/
def Named (src : Source T) (library : Bool) (w : Walk T) (t : T) : Prop := ∀ p, src.planOf t = some p →
  (∀ q, p.parent = some q → q ∈ w.descriptors) ∧ (∀ c ∈ p.conformances, c.interfaceType ∈ w.descriptors) ∧
    (library = true → ∀ f ∈ p.implementations, f ∈ w.keptImplementations ∧ Reached src w f)

omit [DecidableEq T] in
theorem Named.mono (hg : Grew w v) (h : Named src library w t) : Named src library v t := by
  intro p hp
  obtain ⟨hparent,hinterface,hevery⟩ := h p hp
  exact ⟨fun q hq => hg.descriptors q (hparent q hq),fun c hc => hg.descriptors _ (hinterface c hc),
    fun hl f hf => ⟨hg.keptImplementations f (hevery hl f hf).1,(hevery hl f hf).2.mono hg⟩⟩

theorem nameDescriptor_grew : Grew w (Walk.nameDescriptor src library k w t) := by
  induction k generalizing w t with
  | zero => exact .refl
  | succ k ih =>
    have hadd (w : Walk T) : Grew w { w with descriptors := w.descriptors ++ [t] } :=
      ⟨⟨[],by simp⟩,fun _ h => List.mem_append_left _ h,fun _ h => h,fun _ h => h,fun _ h => h,fun _ h => h⟩
    have hplan (w : Walk T) (plan : Plan T) : Grew w { w with namedPlans := w.namedPlans ++ [plan] } :=
      ⟨⟨[],by simp⟩,fun _ h => h,fun _ h => h,fun _ h => h,fun _ h => h,fun _ h => h⟩
    rw [Walk.nameDescriptor]
    split
    · exact .refl
    · dsimp only
      split
      · exact hadd w
      · rename_i plan _
        refine (hadd w).trans ((hplan _ plan).trans ?_)
        split
        · exact keepEverySlot_grew.trans (foldl_grew fun _ _ => ih)
        · exact foldl_grew fun _ _ => ih

theorem nameDescriptor_named (hk : src.height t < k) : t ∈ (Walk.nameDescriptor src library k w t).descriptors ∧
    ∀ x ∈ (Walk.nameDescriptor src library k w t).descriptors,
      x ∈ w.descriptors ∨ Named src library (Walk.nameDescriptor src library k w t) x := by
  induction k generalizing w t with
  | zero => omega
  | succ k ih =>
    rw [Walk.nameDescriptor]
    split
    · exact ⟨‹_›,fun x hx => .inl hx⟩
    · dsimp only
      split
      · rename_i hp
        refine ⟨List.mem_append_right _ (List.mem_singleton_self t),fun x hx => ?_⟩
        rcases List.mem_append.mp hx with hx | hx
        · exact .inl hx
        · rw [List.mem_singleton.mp hx]
          refine .inr fun p hp' => ?_
          rw [hp] at hp'
          cases hp'
      · rename_i plan hp
        set u : Walk T := if library = true then
          ({ w with descriptors := w.descriptors ++ [t], namedPlans := w.namedPlans ++ [plan] } : Walk T).keepEverySlot src plan
          else { w with descriptors := w.descriptors ++ [t], namedPlans := w.namedPlans ++ [plan] } with hu
        set l : List T := plan.parent.toList ++ plan.conformances.map Conformance.interfaceType with hl
        have hdesc : u.descriptors = w.descriptors ++ [t] := by
          rw [hu]
          split
          · exact keepEverySlot_frame.2.2
          · rfl
        have hbelow : ∀ a ∈ l, src.height a < k := by
          intro a ha
          rcases List.mem_append.mp ha with ha | ha
          · have := src.parent_below t plan a hp (Option.mem_toList.mp ha)
            omega
          · obtain ⟨c,hc,rfl⟩ := List.mem_map.mp ha
            have := src.interface_below t plan hp c hc
            omega
        have hgrew : Grew u (l.foldl (Walk.nameDescriptor src library k) u) := foldl_grew fun _ _ => nameDescriptor_grew
        have hall : ∀ a ∈ l, a ∈ (l.foldl (Walk.nameDescriptor src library k) u).descriptors :=
          foldl_done (P := fun a v => a ∈ v.descriptors) (fun _ _ => nameDescriptor_grew) (fun v a ha => (ih (hbelow a ha)).1)
            fun a _ _ hg ha => hg.descriptors a ha
        have hnew : ∀ x ∈ (l.foldl (Walk.nameDescriptor src library k) u).descriptors,
            x ∈ u.descriptors ∨ Named src library (l.foldl (Walk.nameDescriptor src library k) u) x := by
          refine foldl_keeps (I := fun v => ∀ x ∈ v.descriptors, x ∈ u.descriptors ∨ Named src library v x)
            (fun v a ha hv x hx => ?_) fun x hx => .inl hx
          rcases (ih (hbelow a ha)).2 x hx with hx | hx
          · exact (hv x hx).imp id fun hn => hn.mono nameDescriptor_grew
          · exact .inr hx
        have hevery : library = true → ∀ f ∈ plan.implementations, f ∈ u.keptImplementations ∧ Reached src u f := by
          intro hlib
          rw [hu,if_pos hlib]
          exact foldl_done (P := fun f v => f ∈ v.keptImplementations ∧ Reached src v f) (fun _ _ => reachImplementation_grew)
            (fun _ _ _ => reachImplementation_done) fun f _ _ hg hf => ⟨hg.keptImplementations f hf.1,hf.2.mono hg⟩
        have hnamed : Named src library (l.foldl (Walk.nameDescriptor src library k) u) t := by
          intro p hp'
          cases hp.symm.trans hp'
          refine ⟨fun q hq => hall q (List.mem_append_left _ (Option.mem_toList.mpr hq)),
            fun c hc => hall _ (List.mem_append_right _ (List.mem_map_of_mem hc)),fun hlib f hf => ?_⟩
          exact ⟨hgrew.keptImplementations f (hevery hlib f hf).1,(hevery hlib f hf).2.mono hgrew⟩
        refine ⟨hgrew.descriptors t (by rw [hdesc]; exact List.mem_append_right _ (List.mem_singleton_self t)),fun x hx => ?_⟩
        rcases hnew x hx with hx | hx
        · rw [hdesc] at hx
          rcases List.mem_append.mp hx with hx | hx
          · exact .inl hx
          · rw [List.mem_singleton.mp hx]
            exact .inr hnamed
        · exact .inr hx

/-- What neither naming a descriptor nor reaching an implementation changes. -/
theorem nameDescriptor_keeps {I : Walk T → Prop}
    (hname : ∀ w ds ps, I w → I { w with descriptors := ds, namedPlans := ps })
    (hreach : ∀ w f, I w → I (w.reachImplementation src f)) (h : I w) : I (Walk.nameDescriptor src library k w t) := by
  induction k generalizing w t with
  | zero => exact h
  | succ k ih =>
    rw [Walk.nameDescriptor]
    split
    · exact h
    · dsimp only
      split
      · exact hname w _ w.namedPlans h
      · rename_i plan _
        refine foldl_keeps (fun v a _ hv => ih hv) ?_
        split
        · exact foldl_keeps (fun v f _ hv => hreach v f hv) (hname w _ _ h)
        · exact hname w _ _ h

theorem nameDescriptor_frame : (Walk.nameDescriptor src library k w t).instantiated = w.instantiated ∧
    (Walk.nameDescriptor src library k w t).dispatched = w.dispatched :=
  nameDescriptor_keeps (I := fun v => v.instantiated = w.instantiated ∧ v.dispatched = w.dispatched) (fun _ _ _ h => h)
    (fun _ _ h => ⟨reach_frame.1.trans h.1,reach_frame.2.1.trans h.2⟩) ⟨rfl,rfl⟩

theorem nameDescriptor_base (h : Base src w) : Base src (Walk.nameDescriptor src library k w t) := by
  refine nameDescriptor_keeps (fun v _ _ hv => ⟨hv.nodup,hv.bodies,hv.kept⟩) (fun v f hv => reach_base ?_) h
  refine ⟨hv.nodup,hv.bodies,fun key hk => ?_⟩
  obtain ⟨t',ht',d',hd',f',hh',hf'⟩ := hv.kept key hk
  exact ⟨t',ht',d',hd',f',hh',List.mem_append_left _ hf'⟩

theorem nameDescriptor_implemented (h : Implemented src w) : Implemented src (Walk.nameDescriptor src library k w t) := by
  refine nameDescriptor_keeps (fun v _ _ hv => hv) (fun v f hv x hx => ?_) h
  rw [Walk.reachImplementation,reach_frame.2.2.2.2] at hx
  rcases List.mem_append.mp hx with hx | hx
  · exact (hv x hx).mono reachImplementation_grew
  · rw [List.mem_singleton.mp hx]
    exact reach_reached

/-! ### Following what is named -/

/-- What a walk keeps from one symbol to the next: every class found is combined with every call found. -/
structure Whole (src : Source T) (library : Bool) (w : Walk T) : Prop extends Base src w where
  implemented : Implemented src w
  pairs : ∀ t ∈ w.instantiated, ∀ d ∈ w.dispatched, Selected src w t d
  named : ∀ t ∈ w.descriptors, Named src library w t

def Followed (src : Source T) (w : Walk T) : Mention T → Prop
  | .symbol s => Reached src w s
  | .descriptor t => t ∈ w.descriptors
  | .allocation t => t ∈ w.instantiated
  | .dispatch d => d ∈ w.dispatched

omit [DecidableEq T] in
theorem Followed.mono {x : Mention T} (hg : Grew w v) (h : Followed src w x) : Followed src v x := by
  cases x with
  | symbol s => exact Reached.mono hg h
  | descriptor t => exact hg.descriptors t h
  | allocation t => exact hg.instantiated t h
  | dispatch d => exact hg.dispatched d h

theorem reach_whole (h : Whole src library w) : Whole src library (w.reach src s) := by
  obtain ⟨hi,hd,hn,-⟩ : (w.reach src s).instantiated = w.instantiated ∧ _ ∧ _ ∧ _ := reach_frame
  refine ⟨reach_base h.toBase,reach_implemented h.implemented,fun t ht d hd' => ?_,fun t ht => ?_⟩
  · exact (h.pairs t (hi ▸ ht) d (hd ▸ hd')).mono reach_grew
  · exact (h.named t (hn ▸ ht)).mono reach_grew

theorem name_whole (h : Whole src library w) : Whole src library (Walk.nameDescriptor src library (src.height t + 1) w t) := by
  obtain ⟨hi,hd⟩ : (Walk.nameDescriptor src library (src.height t + 1) w t).instantiated = w.instantiated ∧ _ := nameDescriptor_frame
  refine ⟨nameDescriptor_base h.toBase,nameDescriptor_implemented h.implemented,fun x hx d hd' => ?_,fun x hx => ?_⟩
  · exact (h.pairs x (hi ▸ hx) d (hd ▸ hd')).mono nameDescriptor_grew
  · rcases (nameDescriptor_named (Nat.lt_succ_self _)).2 x hx with hx | hx
    · exact (h.named x hx).mono nameDescriptor_grew
    · exact hx

/-- An allocated class is combined with every call found before it. -/
theorem instantiate_whole (h : Whole src library w) : Grew w (w.instantiate src t) ∧ t ∈ (w.instantiate src t).instantiated ∧
    Whole src library (w.instantiate src t) := by
  unfold Walk.instantiate
  split
  · exact ⟨.refl,‹_›,h⟩
  · set u : Walk T := { w with instantiated := w.instantiated ++ [t] } with hu
    have hadd : Grew w u :=
      ⟨⟨[],by simp [hu]⟩,fun _ h => h,fun _ h => List.mem_append_left _ h,fun _ h => h,fun _ h => h,fun _ h => h⟩
    have hgrew : Grew u (w.dispatched.foldl (fun w d => w.select src t d) u) := foldl_grew fun _ _ => select_grew
    have hbase : Base src u := by
      refine ⟨h.nodup,h.bodies,fun key hk => ?_⟩
      obtain ⟨t',ht',d',hd',f',hh',hf'⟩ := h.kept key hk
      exact ⟨t',List.mem_append_left _ ht',d',hd',f',hh',hf'⟩
    obtain ⟨hi,hd,hn,hb,himpl⟩ : (w.dispatched.foldl (fun w d => w.select src t d) u).instantiated = u.instantiated ∧
        (w.dispatched.foldl (fun w d => w.select src t d) u).dispatched = w.dispatched ∧
        (w.dispatched.foldl (fun w d => w.select src t d) u).descriptors = w.descriptors ∧
        Base src (w.dispatched.foldl (fun w d => w.select src t d) u) ∧
        Implemented src (w.dispatched.foldl (fun w d => w.select src t d) u) := by
      refine foldl_keeps (I := fun v => v.instantiated = u.instantiated ∧ v.dispatched = w.dispatched ∧ v.descriptors = w.descriptors ∧
        Base src v ∧ Implemented src v) (fun v d hmem ⟨hi,hd,hn,hb,himpl⟩ => ?_) ⟨rfl,rfl,rfl,hbase,h.implemented⟩
      obtain ⟨hi',hd',hn'⟩ : (v.select src t d).instantiated = v.instantiated ∧ _ ∧ _ := select_frame
      refine ⟨hi'.trans hi,hd'.trans hd,hn'.trans hn,select_base hb ?_ (hd ▸ hmem),select_implemented himpl⟩
      rw [hi]
      exact List.mem_append_right _ (List.mem_singleton_self t)
    have hnew : ∀ d ∈ w.dispatched, Selected src (w.dispatched.foldl (fun w d => w.select src t d) u) t d :=
      foldl_done (P := fun d v => Selected src v t d) (fun _ _ => select_grew) (fun _ _ _ => select_selected) fun _ _ _ hg hs => hs.mono hg
    refine ⟨hadd.trans hgrew,?_,hb,himpl,fun x hx d hd' => ?_,fun x hx => ?_⟩
    · rw [hi]
      exact List.mem_append_right _ (List.mem_singleton_self t)
    · rw [hi] at hx
      rw [hd] at hd'
      rcases List.mem_append.mp hx with hx | hx
      · exact (h.pairs x hx d hd').mono (hadd.trans hgrew)
      · rw [List.mem_singleton.mp hx]
        exact hnew d hd'
    · rw [hn] at hx
      exact (h.named x hx).mono (hadd.trans hgrew)

/-- A dispatched call is combined with every class found before it. -/
theorem dispatch_whole (h : Whole src library w) : Grew w (w.dispatch src d) ∧ d ∈ (w.dispatch src d).dispatched ∧
    Whole src library (w.dispatch src d) := by
  unfold Walk.dispatch
  split
  · exact ⟨.refl,‹_›,h⟩
  · set u : Walk T := { w with dispatched := w.dispatched ++ [d] } with hu
    have hadd : Grew w u :=
      ⟨⟨[],by simp [hu]⟩,fun _ h => h,fun _ h => h,fun _ h => List.mem_append_left _ h,fun _ h => h,fun _ h => h⟩
    have hgrew : Grew u (w.instantiated.foldl (fun w t => w.select src t d) u) := foldl_grew fun _ _ => select_grew
    have hbase : Base src u := by
      refine ⟨h.nodup,h.bodies,fun key hk => ?_⟩
      obtain ⟨t',ht',d',hd',f',hh',hf'⟩ := h.kept key hk
      exact ⟨t',ht',d',List.mem_append_left _ hd',f',hh',hf'⟩
    obtain ⟨hi,hd,hn,hb,himpl⟩ : (w.instantiated.foldl (fun w t => w.select src t d) u).instantiated = w.instantiated ∧
        (w.instantiated.foldl (fun w t => w.select src t d) u).dispatched = u.dispatched ∧
        (w.instantiated.foldl (fun w t => w.select src t d) u).descriptors = w.descriptors ∧
        Base src (w.instantiated.foldl (fun w t => w.select src t d) u) ∧
        Implemented src (w.instantiated.foldl (fun w t => w.select src t d) u) := by
      refine foldl_keeps (I := fun v => v.instantiated = w.instantiated ∧ v.dispatched = u.dispatched ∧ v.descriptors = w.descriptors ∧
        Base src v ∧ Implemented src v) (fun v t hmem ⟨hi,hd,hn,hb,himpl⟩ => ?_) ⟨rfl,rfl,rfl,hbase,h.implemented⟩
      obtain ⟨hi',hd',hn'⟩ : (v.select src t d).instantiated = v.instantiated ∧ _ ∧ _ := select_frame
      refine ⟨hi'.trans hi,hd'.trans hd,hn'.trans hn,select_base hb (hi ▸ hmem) ?_,select_implemented himpl⟩
      rw [hd]
      exact List.mem_append_right _ (List.mem_singleton_self d)
    have hnew : ∀ t ∈ w.instantiated, Selected src (w.instantiated.foldl (fun w t => w.select src t d) u) t d :=
      foldl_done (P := fun t v => Selected src v t d) (fun _ _ => select_grew) (fun _ _ _ => select_selected) fun _ _ _ hg hs => hs.mono hg
    refine ⟨hadd.trans hgrew,?_,hb,himpl,fun x hx c hc => ?_,fun x hx => ?_⟩
    · rw [hd]
      exact List.mem_append_right _ (List.mem_singleton_self d)
    · rw [hi] at hx
      rw [hd] at hc
      rcases List.mem_append.mp hc with hc | hc
      · exact (h.pairs x hx c hc).mono (hadd.trans hgrew)
      · rw [List.mem_singleton.mp hc]
        exact hnew x hx
    · rw [hn] at hx
      exact (h.named x hx).mono (hadd.trans hgrew)

theorem follow_whole {x : Mention T} (h : Whole src library w) : Grew w (w.follow src library x) ∧
    Followed src (w.follow src library x) x ∧ Whole src library (w.follow src library x) := by
  cases x with
  | symbol s => exact ⟨reach_grew,reach_reached,reach_whole h⟩
  | descriptor t => exact ⟨nameDescriptor_grew,(nameDescriptor_named (Nat.lt_succ_self _)).1,name_whole h⟩
  | allocation t => exact instantiate_whole h
  | dispatch d => exact dispatch_whole h

/-- Everything a body names has been followed. -/
def Scanned (src : Source T) (w : Walk T) (s : Symbol) : Prop :=
  ∀ body, src.bodyOf s = some body → ∀ x ∈ body.mentions, Followed src w x

omit [DecidableEq T] in
theorem Scanned.mono (hg : Grew w v) (h : Scanned src w s) : Scanned src v s := fun body hb x hx => (h body hb x hx).mono hg

theorem scan_whole (h : Whole src library w) : Grew w (w.scan src library s) ∧ Scanned src (w.scan src library s) s ∧
    Whole src library (w.scan src library s) := by
  unfold Walk.scan Scanned
  split
  · rename_i hb
    refine ⟨.refl,fun body hbody => ?_,h⟩
    rw [hb] at hbody
    cases hbody
  · rename_i body hb
    have hall (l : List (Mention T)) (w : Walk T) (hw : Whole src library w) : Grew w (l.foldl (Walk.follow src library) w) ∧
        (∀ x ∈ l, Followed src (l.foldl (Walk.follow src library) w) x) ∧ Whole src library (l.foldl (Walk.follow src library) w) := by
      induction l generalizing w with
      | nil => exact ⟨.refl,nofun,hw⟩
      | cons x l ih =>
        obtain ⟨hg,hf,hx⟩ := follow_whole (x := x) hw
        obtain ⟨hg',hf',hl⟩ := ih _ hx
        exact ⟨hg.trans hg',List.forall_mem_cons.mpr ⟨hf.mono hg',hf'⟩,hl⟩
    obtain ⟨hg,hf,hw⟩ := hall body.mentions w h
    refine ⟨hg,fun body' hbody => ?_,hw⟩
    rw [hb] at hbody
    cases hbody
    exact hf

end Ens.Reach
