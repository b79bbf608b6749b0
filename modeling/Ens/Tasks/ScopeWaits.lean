import Ens.Tasks.ScopeSteps

/-! # Waits that climb

A task in a cancellable wait climbs from where it is to see whether it is cancelled. What it has passed and what
it has yet to pass are all of its way up.
-/
namespace Ens.Tasks.Scopes
variable {F : Family} {st st' : State} {t s o : ℕ} {n m : Node} {a : Action}

/-- A task in a wait has its waiter recorded, and what it saw is what climbing passes before where it is. -/
structure Waits (F : Family) (st : State) (t : ℕ) : Prop where
  alive : st.stage t ≠ .idle → st.alive t
  idle : st.stage t = .idle → st.blockedOn t = none
  recorded : st.stage t ≠ .idle → (st.blockedOn t).isSome
  seen : ∀ n ∈ seen (st.stage t), Climbs F (st.start t) n
  looking : ∀ seen n, st.stage t = .looking seen n → Climbs F (st.start t) n ∧ ∀ m, Climbs F (st.start t) m → m ∈ seen ∨ Climbs F n m
  awaiting : ∀ seen, st.stage t = .awaiting seen → ∀ m, Climbs F (st.start t) m → m ∈ seen
  stacked : Stacked F st t

theorem waits_init : Waits F init t := by
  refine ⟨fun h => absurd rfl h,fun _ => rfl,fun h => absurd rfl h,nofun,nofun,nofun,nofun⟩

theorem climbs_next (h : Climbs F n m) : n = m ∨ ∃ o, F.next n = some o ∧ Climbs F o m := by
  rcases Relation.ReflTransGen.cases_head h with h | ⟨o,ho,h⟩
  · exact .inl h
  · exact .inr ⟨o,ho,h⟩

theorem climb_cases (F : Family) (st : State) (l : List Node) (n : Node) : (st.marked n = true ∧ st.climb F l n = .leaving) ∨ st.marked n = false ∧
    ((∃ m, F.next n = some m ∧ st.climb F l n = .looking (l ++ [n]) m) ∨ F.next n = none ∧ st.climb F l n = .awaiting (l ++ [n])) := by
  rw [State.climb]
  cases hm : st.marked n with
  | true => exact .inl ⟨rfl,rfl⟩
  | false =>
    refine .inr ⟨rfl,?_⟩
    cases hn : F.next n with
    | none => exact .inr ⟨rfl,rfl⟩
    | some m => exact .inl ⟨m,rfl,rfl⟩

theorem Waits.congr (h : Waits F st t) (ha : st.alive t → st'.alive t ∨ st.stage t = .idle) (hs : st'.stage t = st.stage t)
    (hb : st'.blockedOn t = st.blockedOn t) (hbodies : st'.bodies t = st.bodies t) : Waits F st' t := by
  have hstart : st'.start t = st.start t := by
    rw [State.start,State.start,hbodies]
  refine ⟨?_,?_,?_,?_,?_,?_,?_⟩
  · rw [hs]
    exact fun hne => (ha (h.alive hne)).resolve_right hne
  · rw [hs,hb]; exact h.idle
  · rw [hs,hb]; exact h.recorded
  · rw [hs,hstart]; exact h.seen
  · rw [hs,hstart]; exact h.looking
  · rw [hs,hstart]; exact h.awaiting
  · intro x rest hx
    exact h.stacked x rest (hbodies ▸ hx)

theorem Waits.of_idle (hs : st.stage t = .idle) (hb : st.blockedOn t = none) (hbodies : Stacked F st t) : Waits F st t := by
  refine ⟨fun h => absurd hs h,fun _ => hb,fun h => absurd hs h,?_,?_,?_,hbodies⟩
  · rw [hs]; nofun
  · rw [hs]; nofun
  · rw [hs]; nofun

theorem enterBody_stacked (h : Stacked F st t) (ho : F.owner s = some t) (hopen : F.openedIn s = (st.bodies t).head?)
    (hb : st'.bodies t = s :: st.bodies t) : Stacked F st' t := by
  intro x rest hx
  cases hb.symm.trans hx
  refine ⟨?_,ho⟩
  cases hbodies : st.bodies t with
  | nil =>
    rw [hbodies] at hopen
    exact around_none hopen
  | cons y ys =>
    rw [hbodies] at hopen
    rw [around_some hopen,(h y ys hbodies).1]

theorem leaveBody_stacked (h : Stacked F st t) (hb : st'.bodies t = (st.bodies t).tail) : Stacked F st' t := by
  intro x rest hx
  rw [hb] at hx
  cases hbodies : st.bodies t with
  | nil =>
    rw [hbodies] at hx
    cases hx
  | cons y ys =>
    obtain ⟨haround,howner⟩ := h y ys hbodies
    obtain rfl : ys = x :: rest := by rwa [hbodies] at hx
    cases hopen : F.openedIn y with
    | none =>
      rw [around_none hopen] at haround
      cases haround
    | some o =>
      rw [around_some hopen] at haround
      cases haround
      exact ⟨rfl,(F.opened_owner y x hopen).1.trans howner⟩

theorem climb_waits (h : Waits F st t) {l : List Node} (hs : st.stage t = .looking l n) :
    Waits F { st with stage := put st.stage t (st.climb F l n) } t := by
  obtain ⟨hn,hrest⟩ := h.looking l n hs
  have hne : st.stage t ≠ .idle := by rw [hs]; nofun
  have hseen : ∀ m ∈ l ++ [n], Climbs F (st.start t) m := by
    intro m hm
    rcases List.mem_append.mp hm with hm | hm
    · exact h.seen m (by rw [hs]; exact hm)
    · obtain rfl := List.mem_singleton.mp hm
      exact hn
  rcases climb_cases F st l n with ⟨-,hc⟩ | ⟨-,⟨o,ho,hc⟩ | ⟨ho,hc⟩⟩
  · rw [hc]
    refine ⟨fun _ => h.alive hne,?_,fun _ => h.recorded hne,?_,?_,?_,h.stacked⟩ <;> (dsimp only; rw [put_self]; nofun)
  · rw [hc]
    refine ⟨fun _ => h.alive hne,?_,fun _ => h.recorded hne,?_,?_,?_,h.stacked⟩
    · dsimp only; rw [put_self]; nofun
    · dsimp only
      rw [put_self]
      exact hseen
    · dsimp only
      rw [put_self]
      intro l' m heq
      cases heq
      refine ⟨hn.tail ho,fun m hm => ?_⟩
      rcases hrest m hm with hm | hm
      · exact .inl (List.mem_append_left _ hm)
      · rcases climbs_next hm with rfl | ⟨o',ho',hm⟩
        · exact .inl (List.mem_append_right _ (List.mem_singleton_self _))
        · cases ho.symm.trans ho'
          exact .inr hm
    · dsimp only; rw [put_self]; nofun
  · rw [hc]
    refine ⟨fun _ => h.alive hne,?_,fun _ => h.recorded hne,?_,?_,?_,h.stacked⟩
    · dsimp only; rw [put_self]; nofun
    · dsimp only
      rw [put_self]
      exact hseen
    · dsimp only; rw [put_self]; nofun
    · dsimp only
      rw [put_self]
      intro l' heq m hm
      cases heq
      rcases hrest m hm with hm | hm
      · exact List.mem_append_left _ hm
      · rcases climbs_next hm with rfl | ⟨o,ho',-⟩
        · exact List.mem_append_right _ (List.mem_singleton_self _)
        · rw [ho] at ho'
          cases ho'

theorem step_waits (h : ∀ t, Waits F st t) (hs : step F st a = some st') : Waits F st' t := by
  have hsame {st' : State} (h₁ : st'.alive = st.alive) (h₂ : st'.stage = st.stage) (h₃ : st'.blockedOn = st.blockedOn)
      (h₄ : st'.bodies = st.bodies) : Waits F st' t :=
    (h t).congr (fun ha => .inl (by rwa [h₁])) (by rw [h₂]) (by rw [h₃]) (by rw [h₄])
  cases a with
  | work i =>
    obtain ⟨asked,item,rest,st₁,n,added,-,hp,rfl⟩ := work_cases hs
    have hframe := perform_frame hp
    exact hsame hframe.alive hframe.stage hframe.blockedOn hframe.bodies
  | enterBody u s =>
    obtain ⟨⟨-,hidle,-,ho,hopen⟩,hs⟩ := Option.ite_none_right_eq_some.mp hs
    cases hs
    by_cases htu : t = u
    · subst htu
      exact .of_idle hidle ((h t).idle hidle) (enterBody_stacked (h t).stacked ho hopen (put_self ..))
    · exact (h t).congr .inl rfl rfl (put_ne htu)
  | leaveBody u =>
    obtain ⟨⟨-,hidle⟩,hs⟩ := Option.ite_none_right_eq_some.mp hs
    cases hs
    by_cases htu : t = u
    · subst htu
      exact .of_idle hidle ((h t).idle hidle) (leaveBody_stacked (h t).stacked (put_self ..))
    · exact (h t).congr .inl rfl rfl (put_ne htu)
  | adoptThread u =>
    obtain ⟨-,hs⟩ := Option.ite_none_right_eq_some.mp hs
    cases hs
    refine (h t).congr (fun ha => .inl ?_) rfl rfl rfl
    dsimp only [put]
    split
    · rfl
    · exact ha
  | admitTask s u =>
    obtain ⟨-,hs⟩ := Option.ite_none_right_eq_some.mp hs
    cases hs
    refine (h t).congr (fun ha => .inl ?_) rfl rfl rfl
    dsimp only [put]
    split
    · rfl
    · exact ha
  | leaveThread u =>
    obtain ⟨⟨-,hidle,-⟩,hs⟩ := Option.ite_none_right_eq_some.mp hs
    cases hs
    by_cases htu : t = u
    · subst htu
      exact (h t).congr (fun _ => .inr hidle) rfl rfl rfl
    · exact (h t).congr (fun ha => .inl ((put_ne htu).trans ha)) rfl rfl rfl
  | finish u ticket =>
    obtain ⟨⟨-,hidle,-⟩,hs⟩ := Option.ite_none_right_eq_some.mp hs
    cases hs
    by_cases htu : t = u
    · subst htu
      exact (h t).congr (fun _ => .inr hidle) rfl rfl rfl
    · exact (h t).congr (fun ha => .inl ((put_ne htu).trans ha)) rfl rfl rfl
  | block u =>
    obtain ⟨⟨halive,-⟩,hs⟩ := Option.ite_none_right_eq_some.mp hs
    cases hs
    by_cases htu : t = u
    · subst htu
      refine ⟨fun _ => halive,?_,?_,?_,?_,?_,(h t).stacked⟩
      · dsimp only; rw [put_self]; rintro ⟨⟩
      · dsimp only; rw [put_self,put_self]; exact fun _ => rfl
      · dsimp only; rw [put_self]; rintro _ ⟨⟩
      · dsimp only; rw [put_self]; rintro _ _ ⟨⟩
      · dsimp only; rw [put_self]; rintro _ ⟨⟩
    · exact (h t).congr .inl (put_ne htu) (put_ne htu) rfl
  | look u =>
    rw [step] at hs
    by_cases htu : t = u
    · subst htu
      split at hs
      · rename_i hstage
        cases hs
        have hne : st.stage t ≠ .idle := by rw [hstage]; rintro ⟨⟩
        refine ⟨fun _ => (h t).alive hne,?_,fun _ => (h t).recorded hne,?_,?_,?_,(h t).stacked⟩
        · dsimp only; rw [put_self]; rintro ⟨⟩
        · dsimp only; rw [put_self]; rintro _ ⟨⟩
        · dsimp only
          rw [put_self]
          intro l m heq
          cases heq
          exact ⟨.refl,fun m hm => .inr hm⟩
        · dsimp only; rw [put_self]; rintro _ ⟨⟩
      · rename_i l n hstage
        cases hs
        exact climb_waits (h t) hstage
      · cases hs
    · split at hs <;> first | cases hs; exact (h t).congr .inl (put_ne htu) rfl rfl | cases hs
  | stop u =>
    rw [step] at hs
    split at hs
    · rename_i l hstage
      cases hs
      by_cases htu : t = u
      · subst htu
        have hne : st.stage t ≠ .idle := by rw [hstage]; rintro ⟨⟩
        refine ⟨fun _ => (h t).alive hne,?_,fun _ => (h t).recorded hne,?_,?_,?_,(h t).stacked⟩
        · dsimp only; rw [put_self]; rintro ⟨⟩
        · dsimp only; rw [put_self]; rintro _ ⟨⟩
        · dsimp only; rw [put_self]; rintro _ _ ⟨⟩
        · dsimp only; rw [put_self]; rintro _ ⟨⟩
      · exact (h t).congr .inl (put_ne htu) rfl rfl
    · cases hs
  | unblock u =>
    obtain ⟨-,hs⟩ := Option.ite_none_right_eq_some.mp hs
    cases hs
    by_cases htu : t = u
    · subst htu
      exact .of_idle (put_self ..) (put_self ..) (h t).stacked
    · exact (h t).congr .inl (put_ne htu) (put_ne htu) rfl
  | cancel n =>
    cases n with
    | scope s =>
      obtain ⟨-,hs⟩ := Option.ite_none_right_eq_some.mp hs
      cases hs
      exact hsame rfl rfl rfl rfl
    | task u =>
      cases hs
      exact hsame rfl rfl rfl rfl
  | _ =>
    obtain ⟨-,hs⟩ := Option.ite_none_right_eq_some.mp hs
    cases hs
    exact hsame rfl rfl rfl rfl

end Ens.Tasks.Scopes
