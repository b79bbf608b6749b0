import Ens.Tasks.ScopeWaits

/-! # Runs of scopes and tasks

A scope ends clean, and a cancel that has returned has woken every task that waits and is cancelled because of
it, in runs where no task ends before the scopes it opened.
-/
set_option linter.all false
namespace Ens.Tasks.Scopes
variable {F : Family} {st st' st₁ : State} {t s : ℕ} {n m : Node} {a : Action} {item : Work} {added todo : List Work}
  {asked : Option Node} {c : Call}

/-! ### What stays -/

/-- What is asked to stop stays so, a waiter woken stays woken, and a task passes nothing that was asked to
stop. -/
structure Passes (st st' : State) : Prop where
  built : ∀ s, st.built s → st'.built s
  ended : ∀ s, st.ended s → st'.ended s
  marked : ∀ n, st.marked n → st'.marked n
  woken : ∀ w, st.woken w → st'.woken w
  passed : ∀ t n, n ∈ seen (st'.stage t) → st.marked n →
    n ∈ seen (st.stage t) ∧ st'.blockedOn t = st.blockedOn t ∧ st'.bodies t = st.bodies t

theorem put_true {f : ℕ → Bool} {i j : ℕ} (h : f j = true) : put f i true j = true := by
  unfold put
  split
  · rfl
  · exact h

theorem Passes.of_eq (h₁ : st'.built = st.built) (h₂ : st'.ended = st.ended) (h₃ : st'.asked = st.asked)
    (h₄ : st'.cancelled = st.cancelled) (h₅ : st'.woken = st.woken) (h₆ : st'.stage = st.stage)
    (h₇ : st'.blockedOn = st.blockedOn) (h₈ : st'.bodies = st.bodies) : Passes st st' := by
  refine ⟨fun s => by rw [h₁]; exact id,fun s => by rw [h₂]; exact id,fun n => ?_,fun w => by rw [h₅]; exact id,fun t n hn _ => ?_⟩
  · cases n with
    | scope s => rw [State.marked,State.marked,h₃]; exact id
    | task t => rw [State.marked,State.marked,h₄]; exact id
  · rw [h₆] at hn
    exact ⟨hn,by rw [h₇],by rw [h₈]⟩

theorem perform_passes (hp : st.perform F item = some (st₁,asked,added)) : Passes st st₁ := by
  have hframe := perform_frame hp
  have hseen : ∀ t n, n ∈ seen (st₁.stage t) → st.marked n →
      n ∈ seen (st.stage t) ∧ st₁.blockedOn t = st.blockedOn t ∧ st₁.bodies t = st.bodies t := by
    intro t n hn _
    rw [hframe.stage] at hn
    exact ⟨hn,by rw [hframe.blockedOn],by rw [hframe.bodies]⟩
  have hbuilt : ∀ s, st.built s → st₁.built s := by
    rw [hframe.built]
    exact fun _ => id
  cases item with
  | cancel n =>
    cases n with
    | scope s =>
      cases hp
      refine ⟨hbuilt,fun _ => id,fun n hn => ?_,fun _ => id,hseen⟩
      cases n with
      | scope x => exact put_true hn
      | task t => exact hn
    | task t =>
      cases hp
      refine ⟨hbuilt,fun _ => id,fun n hn => ?_,fun _ => id,hseen⟩
      cases n with
      | scope x => exact hn
      | task u => exact put_true hn
  | wakeWaiter w =>
    cases hp
    exact ⟨hbuilt,fun _ => id,fun n hn => by cases n <;> exact hn,fun _ => put_true,hseen⟩
  | empty s =>
    obtain ⟨-,hp⟩ := Option.ite_none_right_eq_some.mp hp
    cases hp
    exact ⟨hbuilt,fun _ => put_true,fun n hn => by cases n <;> exact hn,fun _ => id,hseen⟩
  | _ =>
    cases hp
    exact ⟨hbuilt,fun _ => id,fun n hn => by cases n <;> exact hn,fun _ => id,hseen⟩

theorem Passes.of_stage {g : Stage} {b : ℕ → Option ℕ} {w : ℕ} (hb : ∀ u, u ≠ t → b u = st.blockedOn u)
    (h : ∀ n ∈ seen g, st.marked n → n ∈ seen (st.stage t) ∧ b t = st.blockedOn t) :
    Passes st { st with stage := put st.stage t g, blockedOn := b, waiters := w } := by
  refine ⟨fun _ => id,fun _ => id,fun n hn => by cases n <;> exact hn,fun _ => id,fun u n hn hm => ?_⟩
  by_cases hut : u = t
  · subst hut
    dsimp only at hn
    rw [put_self] at hn
    obtain ⟨hmem,heq⟩ := h n hn hm
    exact ⟨hmem,heq,rfl⟩
  · dsimp only at hn
    rw [put_ne hut] at hn
    exact ⟨hn,hb u hut,rfl⟩

theorem Passes.of_bodies {l : List ℕ} (h : st.stage t = .idle) : Passes st { st with bodies := put st.bodies t l } := by
  refine ⟨fun _ => id,fun _ => id,fun n hn => by cases n <;> exact hn,fun _ => id,fun u n hn _ => ?_⟩
  refine ⟨hn,rfl,put_ne ?_⟩
  rintro rfl
  dsimp only at hn
  rw [h] at hn
  cases hn

theorem step_passes (hs : step F st a = some st') : Passes st st' := by
  cases a with
  | work i =>
    obtain ⟨asked,item,rest,st₁,n,added,-,hp,rfl⟩ := work_cases hs
    have h := perform_passes hp
    exact ⟨h.built,h.ended,fun n hn => by have := h.marked n hn; cases n <;> exact this,h.woken,h.passed⟩
  | adopt s =>
    obtain ⟨-,hs⟩ := Option.ite_none_right_eq_some.mp hs
    cases hs
    exact ⟨fun _ => put_true,fun _ => id,fun n hn => by cases n <;> exact hn,fun _ => id,fun _ _ hn _ => ⟨hn,rfl,rfl⟩⟩
  | enterBody u s =>
    obtain ⟨⟨-,hidle,-⟩,hs⟩ := Option.ite_none_right_eq_some.mp hs
    cases hs
    exact .of_bodies hidle
  | leaveBody u =>
    obtain ⟨⟨-,hidle⟩,hs⟩ := Option.ite_none_right_eq_some.mp hs
    cases hs
    exact .of_bodies hidle
  | block u =>
    obtain ⟨-,hs⟩ := Option.ite_none_right_eq_some.mp hs
    cases hs
    exact .of_stage (fun _ hne => put_ne hne) (by rintro _ ⟨⟩)
  | look u =>
    rw [step] at hs
    split at hs
    · cases hs
      exact .of_stage (fun _ _ => rfl) (by rintro _ ⟨⟩)
    · rename_i l n hstage
      cases hs
      refine .of_stage (fun _ _ => rfl) fun x hx hmarked => ⟨?_,rfl⟩
      -- the node climbed last was not marked
      have hof (hnot : st.marked n = false) (hx : x ∈ l ++ [n]) : x ∈ seen (st.stage u) := by
        rw [hstage]
        rcases List.mem_append.mp hx with hx | hx
        · exact hx
        · obtain rfl := List.mem_singleton.mp hx
          rw [hnot] at hmarked
          cases hmarked
      rcases climb_cases F st l n with ⟨-,hc⟩ | ⟨hnot,⟨o,-,hc⟩ | ⟨-,hc⟩⟩
      · rw [hc] at hx
        cases hx
      · rw [hc] at hx
        exact hof hnot hx
      · rw [hc] at hx
        exact hof hnot hx
    · cases hs
  | stop u =>
    rw [step] at hs
    split at hs
    · cases hs
      exact .of_stage (fun _ _ => rfl) (by rintro _ ⟨⟩)
    · cases hs
  | unblock u =>
    obtain ⟨-,hs⟩ := Option.ite_none_right_eq_some.mp hs
    cases hs
    exact .of_stage (fun _ hne => put_ne hne) (by rintro _ ⟨⟩)
  | cancel n =>
    cases n with
    | scope s =>
      obtain ⟨-,hs⟩ := Option.ite_none_right_eq_some.mp hs
      cases hs
      exact .of_eq rfl rfl rfl rfl rfl rfl rfl rfl
    | task u =>
      cases hs
      exact .of_eq rfl rfl rfl rfl rfl rfl rfl rfl
  | _ =>
    obtain ⟨-,hs⟩ := Option.ite_none_right_eq_some.mp hs
    cases hs
    exact .of_eq rfl rfl rfl rfl rfl rfl rfl rfl

/-! ### Calls -/

/-- What a call asked to stop has stopped every task that had passed it, or what is left of the call covers the
task. -/
def Reaching (F : Family) (st : State) (c : Call) : Prop := ∀ n, c.asked = some n → st.marked n ∧
  ∀ t w, st.blockedOn t = some w → st.woken w = false → n ∈ seen (st.stage t) → Covered F st t c.todo

theorem calls_cases (hs : step F st a = some st') : (∃ i, a = .work i) ∨ st'.calls = st.calls ∨
    ∃ todo, st'.calls = st.calls ++ [{ todo := todo }] ∧ Formed st todo ∧ st'.built = st.built ∧ st'.ended = st.ended := by
  have hnew {todo : List Work} (hf : Formed st todo) : (∃ i, a = .work i) ∨ (st.begin todo).calls = st.calls ∨
      ∃ todo', (st.begin todo).calls = st.calls ++ [{ todo := todo' }] ∧ Formed st todo' ∧ (st.begin todo).built = st.built ∧
        (st.begin todo).ended = st.ended := .inr (.inr ⟨todo,rfl,hf,rfl,rfl⟩)
  cases a with
  | work i => exact .inl ⟨i,rfl⟩
  | look u =>
    rw [step] at hs
    split at hs <;> first | cases hs; exact .inr (.inl rfl) | cases hs
  | stop u =>
    rw [step] at hs
    split at hs <;> first | cases hs; exact .inr (.inl rfl) | cases hs
  | cancel n =>
    cases n with
    | scope s =>
      obtain ⟨hb,hs⟩ := Option.ite_none_right_eq_some.mp hs
      cases hs
      refine hnew ⟨fun x hx => ?_,fun x hx => ?_,fun x hx => ?_⟩ <;> cases List.mem_singleton.mp hx
      exact hb
    | task u =>
      cases hs
      refine hnew ⟨fun x hx => ?_,fun x hx => ?_,fun x hx => ?_⟩ <;> cases List.mem_singleton.mp hx
  | failed s failure =>
    obtain ⟨hb,hs⟩ := Option.ite_none_right_eq_some.mp hs
    cases hs
    refine hnew ⟨fun x hx => ?_,fun x hx => ?_,fun x hx => ?_⟩
    · rcases List.mem_cons.mp hx with hx | hx
      · cases hx
      · cases List.mem_singleton.mp hx
        exact hb
    · simp at hx
    · simp at hx
  | timeOut s =>
    obtain ⟨hb,hs⟩ := Option.ite_none_right_eq_some.mp hs
    cases hs
    refine hnew ⟨fun x hx => ?_,fun x hx => ?_,fun x hx => ?_⟩ <;> cases List.mem_singleton.mp hx
    exact hb
  | endScope s =>
    obtain ⟨hb,hs⟩ := Option.ite_none_right_eq_some.mp hs
    cases hs
    refine hnew ⟨fun x hx => ?_,fun x hx => ?_,fun x hx => ?_⟩ <;> cases List.mem_singleton.mp hx
  | endIfOpen s =>
    obtain ⟨hb,hs⟩ := Option.ite_none_right_eq_some.mp hs
    cases hs
    refine hnew ⟨fun x hx => ?_,fun x hx => ?_,fun x hx => ?_⟩ <;> cases List.mem_singleton.mp hx
  | _ =>
    obtain ⟨-,hs⟩ := Option.ite_none_right_eq_some.mp hs
    cases hs
    exact .inr (.inl rfl)

theorem Formed.keep (h : Formed st todo) (hp : Passes st st') : Formed st' todo :=
  ⟨fun s hs => hp.built s (h.cancel s hs),fun s hs => hp.built s (h.expire s hs),fun s hs => hp.ended s (h.disown s hs)⟩

theorem Formed.tail (h : Formed st (item :: todo)) : Formed st todo :=
  ⟨fun s hs => h.cancel s (.tail _ hs),fun s hs => h.expire s (.tail _ hs),fun s hs => h.disown s (.tail _ hs)⟩

theorem Formed.append {more : List Work} (h : Formed st todo) (h' : Formed st more) : Formed st (todo ++ more) :=
  ⟨fun s hs => (List.mem_append.mp hs).elim (h.cancel s) (h'.cancel s),
    fun s hs => (List.mem_append.mp hs).elim (h.expire s) (h'.expire s),
    fun s hs => (List.mem_append.mp hs).elim (h.disown s) (h'.disown s)⟩

theorem perform_formed (h : Formed st (item :: todo)) (hp : st.perform F item = some (st₁,asked,added)) : Formed st₁ added := by
  have hwakes {l : List Work} (hl : ∀ b ∈ l, ∃ i, b = .wakeWaiter i ∨ b = .wake i ∨ b = .wakeTasks i ∨ ∃ j, b = .wakeWithin i j) :
      Formed st₁ l := by
    refine ⟨fun x hx => ?_,fun x hx => ?_,fun x hx => ?_⟩ <;>
      (obtain ⟨i,hi | hi | hi | ⟨j,hi⟩⟩ := hl _ hx <;> cases hi)
  cases item with
  | cancel n =>
    cases n with
    | scope s =>
      cases hp
      refine hwakes fun b hb => ?_
      rcases List.mem_cons.mp hb with rfl | hb
      · exact ⟨s,.inr (.inr (.inl rfl))⟩
      · obtain ⟨u,-,rfl⟩ := List.mem_map.mp hb
        exact ⟨u,.inr (.inr (.inr ⟨s,rfl⟩))⟩
    | task t =>
      cases hp
      refine hwakes fun b hb => ?_
      obtain rfl := List.mem_singleton.mp hb
      exact ⟨t,.inr (.inl rfl)⟩
  | wakeTasks s =>
    cases hp
    refine hwakes fun b hb => ?_
    obtain ⟨e,-,rfl⟩ := List.mem_map.mp hb
    exact ⟨e.2,.inr (.inl rfl)⟩
  | wake u =>
    cases hp
    refine hwakes fun b hb => ?_
    rcases List.mem_append.mp hb with hb | hb
    · obtain ⟨w,-,rfl⟩ := List.mem_map.mp hb
      exact ⟨w,.inl rfl⟩
    · obtain ⟨x,-,rfl⟩ := List.mem_map.mp hb
      exact ⟨x,.inr (.inr (.inl rfl))⟩
  | wakeWithin u s =>
    cases hp
    refine hwakes fun b hb => ?_
    rcases List.mem_append.mp hb with hb | hb
    · split at hb
      · obtain ⟨w,-,rfl⟩ := List.mem_map.mp hb
        exact ⟨w,.inl rfl⟩
      · cases hb
    · obtain ⟨x,-,rfl⟩ := List.mem_map.mp hb
      exact ⟨x,.inr (.inr (.inl rfl))⟩
  | expire s =>
    cases hp
    have hb := h.expire s (List.mem_cons_self ..)
    split
    · exact ⟨nofun,nofun,nofun⟩
    · refine ⟨fun x hx => ?_,fun x hx => ?_,fun x hx => ?_⟩
      · obtain rfl : x = s := by simpa using hx
        exact hb
      · simp at hx
      · simp at hx
  | ifOpen s =>
    cases hp
    split
    · exact ⟨nofun,nofun,nofun⟩
    · refine ⟨fun x hx => ?_,fun x hx => ?_,fun x hx => ?_⟩ <;> cases List.mem_singleton.mp hx
  | empty s =>
    obtain ⟨-,hp⟩ := Option.ite_none_right_eq_some.mp hp
    cases hp
    refine ⟨fun x hx => ?_,fun x hx => ?_,fun x hx => ?_⟩ <;> cases List.mem_singleton.mp hx
    exact put_self ..
  | _ =>
    cases hp
    exact ⟨nofun,nofun,nofun⟩

theorem step_formed (h : ∀ c ∈ st.calls, Formed st c.todo) (hs : step F st a = some st') : ∀ c ∈ st'.calls, Formed st' c.todo := by
  have hpass := step_passes hs
  rcases calls_cases hs with ⟨i,rfl⟩ | heq | ⟨todo,heq,hf,hb,he⟩
  · obtain ⟨asked,item,rest,st₁,n,added,hc,hp,rfl⟩ := work_cases hs
    have hold := h _ (List.mem_of_getElem? hc)
    intro c hmem
    rcases List.mem_or_eq_of_mem_set hmem with hmem | rfl
    · rw [(perform_frame hp).calls] at hmem
      exact (h c hmem).keep hpass
    · have hadded := perform_formed hold hp
      exact Formed.append ⟨hadded.cancel,hadded.expire,hadded.disown⟩ (hold.tail.keep hpass)
  · rw [heq]
    exact fun c hmem => (h c hmem).keep hpass
  · rw [heq]
    intro c hmem
    rcases List.mem_append.mp hmem with hmem | hmem
    · exact (h c hmem).keep hpass
    · obtain rfl := List.mem_singleton.mp hmem
      exact hf.keep hpass

theorem Covers.congr {b : Work} (h : Covers F st t b) (hw : st'.blockedOn t = st.blockedOn t) (hb : st'.bodies t = st.bodies t) :
    Covers F st' t b := by
  cases b with
  | wakeWaiter w => exact hw.trans h
  | wakeWithin u s => exact h.imp (fun ⟨hu,hs⟩ => ⟨hu,hb ▸ hs⟩) id
  | _ => exact h

theorem Covered.congr (h : Covered F st t todo) (hw : st'.blockedOn t = st.blockedOn t) (hb : st'.bodies t = st.bodies t) :
    Covered F st' t todo :=
  have ⟨b,hmem,hc⟩ := h
  ⟨b,hmem,hc.congr hw hb⟩

theorem Reaching.keep (h : Reaching F st c) (hp : Passes st st') : Reaching F st' c := by
  intro n hn
  obtain ⟨hm,hc⟩ := h n hn
  refine ⟨hp.marked n hm,fun t w hw hwoken hseen => ?_⟩
  obtain ⟨hseen,hb,hbodies⟩ := hp.passed t n hseen hm
  refine (hc t w (hb.symm.trans hw) ?_ hseen).congr hb hbodies
  cases hwst : st.woken w with
  | true =>
    rw [hp.woken w hwst] at hwoken
    cases hwoken
  | false => rfl

theorem perform_asks (hp : st.perform F item = some (st₁,some n,added)) : item = .cancel n ∧ added = wakes F n ∧ st₁.marked n := by
  cases item with
  | cancel m =>
    cases m with
    | scope s =>
      cases hp
      exact ⟨rfl,rfl,put_self ..⟩
    | task t =>
      cases hp
      exact ⟨rfl,rfl,put_self ..⟩
  | empty s =>
    obtain ⟨-,hp⟩ := Option.ite_none_right_eq_some.mp hp
    cases hp
  | _ => cases hp

theorem perform_reaching (ht : Tree F st) (hw : ∀ t, Waits F st t) (hf : Formed st (item :: todo))
    (h : Reaching F st ⟨asked,item :: todo⟩) {next : Option Node} (hp : st.perform F item = some (st₁,next,added)) :
    Reaching F st₁ ⟨next.or asked,added ++ todo⟩ := by
  have hpass := perform_passes hp
  intro n hn
  cases next with
  | some m =>
    cases hn
    obtain ⟨rfl,rfl,hm⟩ := perform_asks hp
    refine ⟨hm,fun t w hblocked _ hseen => ?_⟩
    have hframe := perform_frame hp
    rw [hframe.stage] at hseen
    have hcover : Covered F st t (wakes F n) := wakes_cover (hw t).stacked ((hw t).seen n hseen) fun s hs =>
      ht.apart s (ht.begun s (hf.cancel s (hs ▸ List.mem_cons_self ..)))
    obtain ⟨b,hmem,hc⟩ := hcover.congr (congrFun hframe.blockedOn t) (congrFun hframe.bodies t)
    exact ⟨b,List.mem_append_left _ hmem,hc⟩
  | none =>
    obtain ⟨hm,hc⟩ := h.keep hpass n hn
    refine ⟨hm,fun t w hblocked hwoken hseen => ?_⟩
    have hframe := perform_frame hp
    obtain ⟨b,hmem,hcover⟩ := hc t w hblocked hwoken hseen
    rcases List.mem_cons.mp hmem with rfl | hmem
    · have hstage : st.stage t ≠ .idle := by
        intro hidle
        rw [hframe.stage,hidle] at hseen
        cases hseen
      have hblocked' : st.blockedOn t = some w := by rwa [hframe.blockedOn] at hblocked
      have hback : Covers F st t b := hcover.congr (congrFun hframe.blockedOn t).symm (congrFun hframe.bodies t).symm
      rcases ht.perform_covers ((hw t).alive hstage) hblocked' hback hp with hw' | hadded
      · rw [hw'] at hwoken
        cases hwoken
      · obtain ⟨d,hd,hcd⟩ := hadded.congr (congrFun hframe.blockedOn t) (congrFun hframe.bodies t)
        exact ⟨d,List.mem_append_left _ hd,hcd⟩
    · exact ⟨b,List.mem_append_right _ hmem,hcover⟩

theorem step_reaching (ht : Tree F st) (hw : ∀ t, Waits F st t) (hf : ∀ c ∈ st.calls, Formed st c.todo)
    (h : ∀ c ∈ st.calls, Reaching F st c) (hs : step F st a = some st') : ∀ c ∈ st'.calls, Reaching F st' c := by
  have hpass := step_passes hs
  rcases calls_cases hs with ⟨i,rfl⟩ | heq | ⟨todo,heq,-⟩
  · obtain ⟨asked,item,rest,st₁,n,added,hc,hp,rfl⟩ := work_cases hs
    have hmem := List.mem_of_getElem? hc
    intro c hcmem
    rcases List.mem_or_eq_of_mem_set hcmem with hcmem | rfl
    · rw [(perform_frame hp).calls] at hcmem
      exact (h c hcmem).keep hpass
    · have hnext := perform_reaching ht hw (hf _ hmem) (h _ hmem) hp
      intro n' hn'
      obtain ⟨hm,hcov⟩ := hnext n' hn'
      exact ⟨by cases n' <;> exact hm,fun t w hb hwoken hseen => (hcov t w hb hwoken hseen).congr rfl rfl⟩
  · rw [heq]
    exact fun c hmem => (h c hmem).keep hpass
  · rw [heq]
    intro c hmem
    rcases List.mem_append.mp hmem with hmem | hmem
    · exact (h c hmem).keep hpass
    · obtain rfl := List.mem_singleton.mp hmem
      nofun

/-! ### The run -/

structure Inv (F : Family) (st : State) : Prop where
  ledger : Ledger st
  tree : Tree F st
  waits : ∀ t, Waits F st t
  formed : ∀ c ∈ st.calls, Formed st c.todo
  reaching : ∀ c ∈ st.calls, Reaching F st c

theorem inv_init : Inv F init := ⟨ledger_init,tree_init,fun _ => waits_init,nofun,nofun⟩

theorem step_inv (st : State) (a : Action) (st' : State) (h : Inv F st) (hk : keepsScopes st a = true) (hs : step F st a = some st') :
    Inv F st' :=
  ⟨step_ledger st a st' h.ledger hs,step_tree h.tree h.ledger h.formed hk hs,fun _ => step_waits h.waits hs,
    step_formed h.formed hs,step_reaching h.tree h.waits h.formed h.reaching hs⟩

/-- A scope that has ended runs nothing, every task it admitted was removed once or still runs, the failure it
keeps is the first one, and a call that has returned has woken every task that waits and comes, climbing, to what the
call asked to stop. -/
structure Clean (F : Family) (st : State) : Prop where
  ended : ∀ s, st.ended s → st.running s = []
  once : ∀ s, (st.removed s ++ (st.running s).map Prod.fst).Perm (List.range (st.started s))
  first : ∀ s, st.firstFailure s = (st.failures s).head?
  woken : ∀ c ∈ st.calls, c.todo = [] → ∀ n, c.asked = some n → st.marked n ∧
    ∀ t seen, st.stage t = .awaiting seen → Climbs F (st.start t) n → ∃ w, st.blockedOn t = some w ∧ st.woken w

theorem Inv.clean (h : Inv F st) : Clean F st := by
  refine ⟨h.ledger.ended,h.ledger.tickets,h.ledger.first,fun c hc htodo n hn => ?_⟩
  obtain ⟨hm,hcov⟩ := h.reaching c hc n hn
  refine ⟨hm,fun t l hstage hclimbs => ?_⟩
  have hw := h.waits t
  obtain ⟨w,hblocked⟩ := Option.isSome_iff_exists.mp (hw.recorded (by rw [hstage]; nofun))
  have hseen : n ∈ seen (st.stage t) := by
    rw [hstage]
    exact hw.awaiting l hstage n hclimbs
  refine ⟨w,hblocked,?_⟩
  by_contra hwoken
  obtain ⟨b,hb,-⟩ := hcov t w hblocked (by simpa using hwoken) hseen
  rw [htodo] at hb
  cases hb

theorem step_closed (hs : step F st a = some st') (he : st.ended s = true) : st'.ended s = true ∧ st'.started s = st.started s := by
  refine ⟨(step_passes hs).ended s he,?_⟩
  cases a with
  | work i =>
    obtain ⟨asked,item,rest,st₁,n,added,-,hp,rfl⟩ := work_cases hs
    exact congrFun (perform_frame hp).started s
  | admitTask x t =>
    obtain ⟨⟨-,hopen,-⟩,hs⟩ := Option.ite_none_right_eq_some.mp hs
    cases hs
    refine put_ne ?_
    rintro rfl
    rw [he] at hopen
    cases hopen
  | look u =>
    rw [step] at hs
    split at hs <;> first | cases hs; rfl | cases hs
  | stop u =>
    rw [step] at hs
    split at hs <;> first | cases hs; rfl | cases hs
  | cancel n =>
    cases n with
    | scope s =>
      obtain ⟨-,hs⟩ := Option.ite_none_right_eq_some.mp hs
      cases hs
      rfl
    | task u =>
      cases hs
      rfl
  | _ =>
    obtain ⟨-,hs⟩ := Option.ite_none_right_eq_some.mp hs
    cases hs
    rfl

/-- In every run in which no task ends before the scopes it opened have. -/
theorem run_clean (as bs : List Action) (hc : Exec.StepsMeet (step F) (fun u a => keepsScopes u a) init (as ++ bs))
    (h : Exec.exec (step F) init as = some st) (h' : Exec.exec (step F) st bs = some st') :
    Clean F st' ∧ ∀ s, st.ended s → st'.ended s ∧ st'.started s = st.started s := by
  have hall : Exec.exec (step F) init (as ++ bs) = some st' := by
    rw [Exec.exec_append,h]
    exact h'
  have hinv := (Exec.holdsAlong_of_stepsMeet inv_init step_inv hc).last hall
  refine ⟨hinv.clean,fun s hs => ?_⟩
  exact Exec.exec_invariant (I := fun u => u.ended s = true ∧ u.started s = st.started s) ⟨hs,rfl⟩
    (fun u a v hu huv => (step_closed huv hu.1).imp id fun heq => heq.trans hu.2) h'

def line : Family where
  owner s := if s = 1 then some 1 else none
  openedIn _ := none
  scopeOf t := if t = 1 then 0 else 1
  apart _ := false
  opened_before := nofun
  opened_owner := nofun
  apart_owner := nofun

def lineWait : List Action :=
  [.construct 0,.adopt 0,.admitTask 0 1,.construct 1,.adopt 1,.admitTask 1 2,.block 2,.look 2,.look 2,.look 2,.look 2,.look 2]

def lineCancel : List Action := .cancel (.scope 0) :: List.replicate 6 (.work 0)

theorem run_clean_line : ∃ st st', Exec.exec (step line) init lineWait = some st ∧
    Exec.exec (step line) st lineCancel = some st' ∧
    st'.calls = [⟨some (.scope 0),[]⟩] ∧ st'.woken 0 = true ∧ Clean line st' ∧ ∀ s, st.ended s → st'.ended s ∧ st'.started s = st.started s :=
  ⟨_,_,rfl,rfl,rfl,rfl,run_clean lineWait lineCancel (Exec.stepsMeet_of_checks (by decide)) rfl rfl⟩

/-- The first task ends while its scope is still open, and the wakes of the cancel stop there. -/
theorem run_stray : ¬∀ (F : Family) (as : List Action) (st : State), Exec.exec (step F) init as = some st → Clean F st := by
  intro h
  have hclean := h line (lineWait ++ [.finish 1 0,.cancel (.scope 0),.work 0,.work 0]) _ rfl
  have hclimbs : Climbs line (.task 2) (.scope 0) :=
    .head rfl (.head rfl (.single rfl))
  obtain ⟨-,hwoken⟩ := hclean.woken _ (List.mem_singleton_self _) rfl (.scope 0) rfl
  obtain ⟨w,hblocked,hw⟩ := hwoken 2 _ rfl hclimbs
  obtain rfl : 0 = w := Option.some.inj hblocked
  cases hw

end Ens.Tasks.Scopes
