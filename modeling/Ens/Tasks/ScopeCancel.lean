import Ens.Tasks.Scopes

/-! # A cancel reaches everyone it concerns

While a task waits, every task and scope on its way up stays where a cancel finds it, as long as no task ends
before the scopes it opened. So what a cancel has left to do covers every waiting task that did not see the cancel,
until it is woken.
-/
namespace Ens.Tasks.Scopes
variable {F : Family} {st st' : State} {t u v s o x w : ℕ} {n m : Node} {todo : List Work}

@[simp] theorem put_self {V : Type} (f : ℕ → V) (i : ℕ) (a : V) : put f i a i = a := if_pos rfl

theorem put_ne {V : Type} {f : ℕ → V} {i j : ℕ} {a : V} (h : j ≠ i) : put f i a j = f j := if_neg h

/-! ### The way up -/

theorem aroundFrom_eq {k l : ℕ} (hk : s ≤ k) (hl : s ≤ l) : F.aroundFrom k s = F.aroundFrom l s := by
  induction k generalizing s l with
  | zero =>
    obtain rfl : s = 0 := by omega
    cases l with
    | zero => rfl
    | succ l =>
      rw [Family.aroundFrom,Family.aroundFrom]
      split
      · rename_i o ho
        exact absurd (F.opened_before 0 o ho) (by omega)
      · rfl
  | succ k ih =>
    cases l with
    | zero =>
      obtain rfl : s = 0 := by omega
      rw [Family.aroundFrom,Family.aroundFrom]
      split
      · rename_i o ho
        exact absurd (F.opened_before 0 o ho) (by omega)
      · rfl
    | succ l =>
      rw [Family.aroundFrom,Family.aroundFrom]
      split
      · rename_i o ho
        have := F.opened_before s o ho
        rw [ih (s := o) (l := l) (by omega) (by omega)]
      · rfl

theorem around_some (h : F.openedIn s = some o) : F.around s = o :: F.around o := by
  have hlt := F.opened_before s o h
  obtain ⟨k,rfl⟩ : ∃ k, s = k + 1 := ⟨s - 1,by omega⟩
  rw [Family.around,Family.aroundFrom,h]
  exact congrArg (o :: ·) (aroundFrom_eq (by omega) (Nat.le_refl o))

theorem around_none (h : F.openedIn s = none) : F.around s = [] := by
  cases s with
  | zero => rfl
  | succ k => rw [Family.around,Family.aroundFrom,h]

theorem around_lt (h : o ∈ F.around s) : o < s := by
  induction s using Nat.strongRecOn with
  | _ s ih =>
    cases hs : F.openedIn s with
    | none => rw [around_none hs] at h; cases h
    | some p =>
      have hlt := F.opened_before s p hs
      rw [around_some hs] at h
      rcases List.mem_cons.mp h with rfl | h
      · exact hlt
      · exact Nat.lt_trans (ih p hlt h) hlt

theorem around_owner (h : o ∈ F.around s) : F.owner o = F.owner s ∧ (F.owner s).isSome := by
  induction s using Nat.strongRecOn with
  | _ s ih =>
    cases hs : F.openedIn s with
    | none => rw [around_none hs] at h; cases h
    | some p =>
      obtain ⟨hp,hsome⟩ := F.opened_owner s p hs
      rw [around_some hs] at h
      rcases List.mem_cons.mp h with rfl | h
      · exact ⟨hp,hsome⟩
      · exact ⟨(ih p (F.opened_before s p hs) h).1.trans hp,hsome⟩

theorem around_next (h : x ∈ F.around s) (ho : F.openedIn x = some o) : o ∈ F.around s := by
  induction s using Nat.strongRecOn with
  | _ s ih =>
    cases hs : F.openedIn s with
    | none => rw [around_none hs] at h; cases h
    | some p =>
      rw [around_some hs] at h ⊢
      rcases List.mem_cons.mp h with rfl | h
      · rw [around_some ho]
        exact List.mem_cons_of_mem _ (List.mem_cons_self ..)
      · exact List.mem_cons_of_mem _ (ih p (F.opened_before s p hs) h)

/-- The task that opened the scope of a task, and the one that opened the scope of that one, and so on. -/
inductive Above (F : Family) (t : ℕ) : ℕ → Prop
  | self : Above F t t
  | up {v u : ℕ} (h : Above F t v) (ho : F.owner (F.scopeOf v) = some u) : Above F t u

def Climbs (F : Family) : Node → Node → Prop := Relation.ReflTransGen fun a b => F.next a = some b

/-- The bodies a task runs are the scopes around the innermost one, all opened by the task. -/
def Stacked (F : Family) (st : State) (t : ℕ) : Prop :=
  ∀ s rest, st.bodies t = s :: rest → F.around s = rest ∧ F.owner s = some t

def Placed (F : Family) (st : State) (t : ℕ) : Node → Prop
  | .task u => Above F t u
  | .scope s => (s ∈ st.bodies t ∧ F.owner s = some t) ∨ ∃ v, Above F t v ∧ (s = F.scopeOf v ∨ s ∈ F.around (F.scopeOf v))

theorem climbs_placed (hb : Stacked F st t) (h : Climbs F (st.start t) n) : Placed F st t n := by
  induction h with
  | refl =>
    rw [State.start]
    split
    · rename_i s rest hs
      exact .inl ⟨by rw [hs]; exact List.mem_cons_self ..,(hb s rest hs).2⟩
    · exact .self
  | @tail a b _ hnext ih =>
    cases a with
    | task u =>
      cases hnext
      exact .inr ⟨u,ih,.inl rfl⟩
    | scope s =>
      rw [Family.next] at hnext
      split at hnext
      · rename_i o ho
        cases hnext
        rcases ih with ⟨hs,howner⟩ | ⟨v,hv,hs⟩
        · refine .inl ⟨?_,(F.opened_owner s o ho).1.trans howner⟩
          cases hbodies : st.bodies t with
          | nil => rw [hbodies] at hs; cases hs
          | cons r rest =>
            rw [hbodies] at hs
            rcases List.mem_cons.mp hs with rfl | hs
            · rw [← (hb s rest hbodies).1,around_some ho]
              exact List.mem_cons_of_mem _ (List.mem_cons_self ..)
            · rw [← (hb r rest hbodies).1] at hs ⊢
              exact List.mem_cons_of_mem _ (around_next hs ho)
        · refine .inr ⟨v,hv,.inr ?_⟩
          rcases hs with rfl | hs
          · rw [around_some ho]
            exact List.mem_cons_self ..
          · exact around_next hs ho
      · obtain ⟨p,hp,rfl⟩ := Option.map_eq_some_iff.mp hnext
        rcases ih with ⟨-,howner⟩ | ⟨v,hv,hs⟩
        · cases howner.symm.trans hp
          exact .self
        · refine .up hv ?_
          rcases hs with rfl | hs
          · exact hp
          · exact (around_owner hs).1 ▸ hp

/-! ### What is left of a cancel -/

def Covers (F : Family) (st : State) (t : ℕ) : Work → Prop
  | .wakeWaiter w => st.blockedOn t = some w
  | .wake u => Above F t u
  | .wakeTasks s => ∃ u, Above F t u ∧ F.scopeOf u = s ∧ F.apart s = false
  | .wakeWithin u s => u = t ∧ s ∈ st.bodies t ∨ ∃ v, Above F t v ∧ F.owner (F.scopeOf v) = some u ∧ s ∈ F.around (F.scopeOf v)
  | _ => False

def Covered (F : Family) (st : State) (t : ℕ) (todo : List Work) : Prop := ∃ a ∈ todo, Covers F st t a

def seen : Stage → List Node
  | .looking seen _ => seen
  | .awaiting seen => seen
  | _ => []

/-- After something was asked to stop, the wakes that follow cover every task that had passed it. -/
theorem wakes_cover (hb : Stacked F st t) (h : Climbs F (st.start t) n) (hn : ∀ s, n = .scope s → F.apart s = false) :
    Covered F st t (wakes F n) := by
  have hplaced := climbs_placed hb h
  cases n with
  | task u => exact ⟨_,List.mem_cons_self ..,hplaced⟩
  | scope s =>
    rcases hplaced with ⟨hs,howner⟩ | ⟨v,hv,rfl | hs⟩
    · refine ⟨.wakeWithin t s,?_,.inl ⟨rfl,hs⟩⟩
      rw [wakes,howner]
      simp
    · exact ⟨_,List.mem_cons_self ..,v,hv,rfl,hn _ rfl⟩
    · obtain ⟨howner,hsome⟩ := around_owner hs
      obtain ⟨p,hp⟩ := Option.isSome_iff_exists.mp hsome
      refine ⟨.wakeWithin p s,?_,.inr ⟨v,hv,hp,hs⟩⟩
      rw [wakes,howner,hp]
      simp

/-! ### The tree -/

/-- The tasks that run are in their scopes, and the scopes that are open are with their owners, none of which
has ended. -/
structure Tree (F : Family) (st : State) : Prop where
  apart : ∀ s, st.begun s → F.apart s = false
  begun : ∀ s, st.built s → st.begun s
  alive : ∀ t, st.alive t → (∃ k, (k,t) ∈ st.running (F.scopeOf t)) ∨ F.apart (F.scopeOf t)
  running : ∀ s e, e ∈ st.running s → F.scopeOf e.2 = s ∧ st.alive e.2 ∧ st.built s ∧ st.ended s = false
  once : ∀ s k l t, (k,t) ∈ st.running s → (l,t) ∈ st.running s → k = l
  adopted : ∀ s p, st.built s → st.ended s = false → F.owner s = some p → s ∈ st.scopes p
  keeps : ∀ s p, s ∈ st.scopes p → st.ended s = false → (∃ k, (k,p) ∈ st.running (F.scopeOf p)) ∨ F.apart (F.scopeOf p)

theorem Tree.above_live (h : Tree F st) (ht : st.alive t) (ha : Above F t u) :
    (∃ k, (k,u) ∈ st.running (F.scopeOf u)) ∨ F.apart (F.scopeOf u) := by
  induction ha with
  | self => exact h.alive t ht
  | @up v u _ ho ih =>
    rcases ih with ⟨k,hk⟩ | hapart
    · obtain ⟨-,-,hbuilt,hended⟩ := h.running _ _ hk
      exact h.keeps _ u (h.adopted _ u hbuilt hended ho) hended
    · rw [F.apart_owner _ hapart] at ho
      cases ho

/-- The scope of a task above another one is with the task that opened it. -/
theorem Tree.above_adopted (h : Tree F st) (ht : st.alive t) (hv : Above F t v) (ho : F.owner (F.scopeOf v) = some u) :
    F.scopeOf v ∈ st.scopes u ∧ F.apart (F.scopeOf v) = false := by
  rcases h.above_live ht hv with ⟨k,hk⟩ | hapart
  · obtain ⟨-,-,hbuilt,hended⟩ := h.running _ _ hk
    exact ⟨h.adopted _ u hbuilt hended ho,h.apart _ (h.begun _ hbuilt)⟩
  · rw [F.apart_owner _ hapart] at ho
    cases ho

/-- An item that covers a waiting task wakes it or leaves items that do. -/
theorem Tree.perform_covers (h : Tree F st) (ht : st.alive t) (hw : st.blockedOn t = some w) {item : Work} {added : List Work}
    {asked : Option Node} (hc : Covers F st t item) (hp : st.perform F item = some (st',asked,added)) :
    st'.woken w = true ∨ Covered F st t added := by
  cases item with
  | wakeWaiter w' =>
    cases hp
    cases hw.symm.trans hc
    exact .inl (put_self ..)
  | wake u =>
    cases hp
    refine .inr ?_
    cases hc with
    | self => exact ⟨.wakeWaiter w,List.mem_append_left _ (by rw [hw]; simp),hw⟩
    | @up v _ hv ho =>
      obtain ⟨hmem,hapart⟩ := h.above_adopted ht hv ho
      exact ⟨.wakeTasks (F.scopeOf v),List.mem_append_right _ (List.mem_map_of_mem hmem),v,hv,rfl,hapart⟩
  | wakeTasks s =>
    cases hp
    obtain ⟨u,hu,rfl,hapart⟩ := hc
    rcases h.above_live ht hu with ⟨k,hk⟩ | hapart'
    · exact .inr ⟨.wake u,List.mem_map.mpr ⟨_,hk,rfl⟩,hu⟩
    · rw [hapart] at hapart'
      cases hapart'
  | wakeWithin u s =>
    cases hp
    refine .inr ?_
    rcases hc with ⟨rfl,hs⟩ | ⟨v,hv,ho,hs⟩
    · refine ⟨.wakeWaiter w,List.mem_append_left _ ?_,hw⟩
      rw [if_pos hs,hw]
      simp
    · obtain ⟨hmem,hapart⟩ := h.above_adopted ht hv ho
      refine ⟨.wakeTasks (F.scopeOf v),List.mem_append_right _ (List.mem_map_of_mem (List.mem_filter.mpr ⟨hmem,?_⟩)),v,hv,rfl,hapart⟩
      have hne : F.scopeOf v ≠ s := fun heq => absurd (around_lt (heq ▸ hs)) (by omega)
      simp [hne,Family.isInside,hs]
  | record => exact hc.elim
  | expire => exact hc.elim
  | passed => exact hc.elim
  | cancel => exact hc.elim
  | ifOpen => exact hc.elim
  | empty => exact hc.elim
  | disown => exact hc.elim

end Ens.Tasks.Scopes
