import Ens.Tasks.SchedulerInv

/-! # Which tasks the pool strands

A worker asleep has left its processor's queue empty. The global queue is watched: a thread is on
its way to wake a worker, or a worker is still to look at it. The one step that may end the watch
is an outside thread's `startSearching` that another outside thread refuses which has found no idle
worker, while every worker has looked for the last time.
-/
set_option linter.all false
namespace Ens.Tasks.Scheduler
open Tokens
variable {n : ℕ} {U : Type} [DecidableEq U]
variable {s t : State n U} {a : Action n U} {w v : Fin (n + 1)} {p q : Fin (n + 1)} {x : At n} {c d : Thread n U}

/-! ### The processors' queues -/

structure Queues (s : State n U) : Prop where
  unowned : ∀ p, s.owner p = none → s.queue p = 0
  dry : ∀ w p, (s.place w).dry = true → s.processor w = some p → s.queue p = 0

omit [DecidableEq U] in
theorem queues_init : Queues (init : State n U) := ⟨fun _ _ => rfl,nofun⟩

omit [DecidableEq U] in
theorem Queues.same (h : Queues s) (hqueue : ∀ p, t.queue p ≤ s.queue p) (howner : t.owner = s.owner)
    (hprocessor : t.processor = s.processor) (hplace : t.place = s.place) : Queues t := by
  refine ⟨fun p hp => ?_,fun w p hw hp => ?_⟩
  · have := h.unowned p (howner ▸ hp)
    exact Nat.le_zero.mp (this ▸ hqueue p)
  · rw [hplace] at hw
    rw [hprocessor] at hp
    exact Nat.le_zero.mp (h.dry w p hw hp ▸ hqueue p)

omit [DecidableEq U] in
theorem take_le {k : ℕ} (q : Fin (n + 1)) : (s.take p k).queue q ≤ s.queue q := by
  by_cases hq : q = p
  · simp [State.take,hq]
  · simp [State.take,hq]

omit [DecidableEq U] in
theorem Queues.goto (h : Queues s) (hx : x.dry = true → ∀ p, s.processor w = some p → s.queue p = 0) :
    Queues (s.goto w x) := by
  refine ⟨h.unowned,fun v p hv hp => ?_⟩
  by_cases hvw : v = w
  · subst hvw
    rw [goto_place_self] at hv
    exact hx hv p hp
  · rw [goto_place_ne s x hvw] at hv
    exact h.dry v p hv hp

theorem Queues.wake {y : Option (Waking n)} (h : Queues s) : Queues (s.wake c y) := by
  cases c with
  | inl w => exact h.goto fun hd => by cases y <;> cases hd
  | inr u => exact ⟨h.unowned,h.dry⟩

omit [DecidableEq U] in
/-- A worker pushes to the queue of the processor it holds, which no other worker has found empty. -/
theorem Queues.push (hp : Processors s) (h : Queues s) (hw : s.processor w = some p) (hx : x.dry = false) :
    Queues ((s.push p).goto w x) := by
  have howner := (hp.owner p w).mpr (.inl hw)
  have hne {q : Fin (n + 1)} (hq : q ≠ p) : (s.push p).queue q = s.queue q := Function.update_of_ne hq ..
  refine ⟨fun q hq => ?_,fun v q hv hq => ?_⟩
  · have hqp : q ≠ p := by
      rintro rfl
      rw [show ((s.push q).goto w x).owner q = _ from howner] at hq
      cases hq
    exact (hne hqp).trans (h.unowned q hq)
  · by_cases hvw : v = w
    · subst hvw
      rw [goto_place_self,hx] at hv
      cases hv
    · rw [goto_place_ne _ x hvw] at hv
      have hqp : q ≠ p := by
        rintro rfl
        exact hvw (Option.some.inj (((hp.owner q v).mpr (.inl hq)).symm.trans howner))
      exact (hne hqp).trans (h.dry v q hv hq)

theorem steps_queues (hp : Processors s) (h : Queues s) (hs : Steps s a t) : Queues t := by
  cases hs with
  | silent hq => exact h.goto fun hx => (hq.dry hx).elim (fun hd p hp => h.dry _ p hd hp) id
  | @acquires w i hi hw hnone =>
    refine Queues.goto ⟨fun q hq => ?_,h.dry⟩ (by rintro ⟨⟩)
    by_cases hqi : q = ⟨i,hi⟩
    · rw [hqi]
      exact h.unowned _ hnone
    · exact h.unowned q (by simpa [hqi] using hq)
  | @takes w p hw =>
    refine Queues.goto ⟨h.unowned,fun v q hv hq => ?_⟩ (by rintro ⟨⟩)
    by_cases hvw : v = w
    · subst hvw
      rw [show (s.hold v (some p)).place v = _ from hw] at hv
      cases hv
    · exact h.dry v q hv (by simpa [State.hold,hvw] using hq)
  | @popOwn w p l hw _ =>
    have hsame : Queues (s.take p 1) := h.same (fun q => take_le q) rfl rfl rfl
    exact hsame.goto fun hd => by cases l <;> cases hd
  | @popGlobal w l hw =>
    have hsame : Queues { s with global := s.global - 1 } := h.same (fun _ => le_refl _) rfl rfl rfl
    exact hsame.goto fun hd => by cases l <;> cases hd
  | @robs w v l k m m' hw =>
    have hsame : Queues (s.take v m) := h.same (fun q => take_le q) rfl rfl rfl
    exact hsame.goto fun hd => by cases l <;> cases hd
  | @moves w p l k hw hw' => exact h.push hp hw' (by cases l <;> rfl)
  | @searches w hw _ _ => exact Queues.goto (h.same (t := State.setFlag _ w true) (fun _ => le_refl _) rfl rfl rfl) (by rintro ⟨⟩)
  | @registers w hw => exact Queues.goto (h.same (fun _ => le_refl _) rfl rfl rfl) (by rintro ⟨⟩)
  | @stops w x hw _ =>
    have hsame : Queues (s.setFlag w false) := h.same (fun _ => le_refl _) rfl rfl rfl
    rcases hw with ⟨-,rfl⟩ | ⟨-,rfl⟩ <;> exact hsame.goto (by rintro ⟨⟩)
  | @ends w x hw =>
    have hsame : Queues { s with searching := s.searching - 1 } := h.same (fun _ => le_refl _) rfl rfl rfl
    rcases hw with ⟨-,rfl⟩ | ⟨-,rfl | rfl⟩ <;> exact hsame.goto (by rintro ⟨⟩)
  | @unregisters w hw _ => exact Queues.goto (h.same (fun _ => le_refl _) rfl rfl rfl) (by rintro ⟨⟩)
  | @wakesUp w x hw _ =>
    have hsame : Queues (s.setWoken w false) := h.same (fun _ => le_refl _) rfl rfl rfl
    rcases hw with ⟨-,rfl⟩ | ⟨-,rfl⟩ <;> exact hsame.goto (by rintro ⟨⟩)
  | @queuesOwn w p y hw hw' hy =>
    rcases hy with rfl | rfl
    · exact h.push (x := .runs) hp hw' rfl
    · exact h.push (x := .wakeIdle .starts) hp hw' rfl
  | queuesGlobal hu => exact Queues.wake (h.same (fun _ => le_refl _) rfl rfl rfl)
  | counts hc _ | popsIdle hc _ | givesBack hc | wakes hc => exact Queues.wake (h.same (fun _ => le_refl _) rfl rfl rfl)
  | refused hc _ | noIdle hc _ => exact h.wake

/-! ### The global queue -/

def Waking.pending : Option (Waking n) → Bool
  | some .starts | some .pops | some (.wakes _) => true
  | _ => false

def Watches (s : State n U) : Thread n U → Prop
  | .inl w => s.woken w = true ∨ (s.place w).past = false
  | .inr u => Waking.pending (s.call u) = true

/-- The global queue is watched while it holds a task. -/
def Watched (s : State n U) : Prop := 0 < s.global → ∃ c, Watches s c

/-- The `startSearching` of an outside thread fails while another outside thread that found no idle
worker is still counted, every worker has looked at the global queue for the last time and none has
been woken, and no other thread is still to try. -/
def Misses (s : State n U) (a : Action n U) : Prop :=
  ∃ u, a = .wake (.inr u) ∧ s.call u = some .starts ∧ s.searching ≠ 0 ∧ 0 < s.global ∧
    (∀ w, (s.place w).past = true ∧ s.woken w = false) ∧ (∃ v, s.call v = some .givesBack) ∧
      ∀ v, v ≠ u → s.call v ≠ some .starts

instance [Fintype U] (s : State n U) (a : Action n U) : Decidable (Misses s a) :=
  inferInstanceAs (Decidable (∃ _ : U, _))

omit [DecidableEq U] in
theorem watched_of_place (h : (t.place w).past = false) : Watched t := fun _ => ⟨.inl w,.inr h⟩

omit [DecidableEq U] in
theorem watches_goto (hc : c ≠ .inl w) (h : Watches s c) : Watches (s.goto w x) c := by
  cases c with
  | inl v =>
    have hv : v ≠ w := fun hv => hc (hv ▸ rfl)
    exact h.imp id fun hp => by rw [goto_place_ne s x hv]; exact hp
  | inr u => exact h

/-- A worker that has looked for the last time is registered, does not search and wakes nobody. -/
theorem past_place (h : x.past = true) : x.window = true ∧ x.stopped = true ∧ x.ends = false ∧ x.waking = none := by
  cases x with
  | looks l y =>
    cases l <;> cases y <;> first | exact ⟨rfl,rfl,rfl,rfl⟩ | cases h
  | sleeps => exact ⟨rfl,rfl,rfl,rfl⟩
  | _ => cases h

theorem asleep_waking (h : x.asleep = true) : x.waking = none := by
  cases x <;> first | rfl | cases h

/-- An operation that moves a worker to where it has looked for the last time: it found the global
queue empty just now, or has looked for the last time before. -/
theorem Watched.silent (h : Watched s) (hq : Silent s w x) : Watched (s.goto w x) := by
  cases hx : x.past with
  | false => exact watched_of_place (w := w) (by rw [goto_place_self]; exact hx)
  | true =>
    intro hpos
    rcases hq.past hx with hold | hzero
    · obtain ⟨c,hc⟩ := h hpos
      by_cases hcw : c = .inl w
      · subst hcw
        exact ⟨.inl w,.inl (hc.resolve_right fun hp => by rw [hold] at hp; cases hp)⟩
      · exact ⟨c,watches_goto hcw hc⟩
    · have hpos : 0 < s.global := hpos
      omega

theorem watched_worker {y : Option (Waking n)} : Watched (s.wake (.inl w) y) := by
  refine watched_of_place (w := w) ?_
  have hplace : (s.wake (.inl w) y).place w = _ := goto_place_self ..
  rw [hplace]
  cases y <;> rfl

theorem watches_wake {u : U} {y : Option (Waking n)} (hc : c ≠ .inr u) (h : Watches s c) :
    Watches (s.wake (.inr u) y) c := by
  cases c with
  | inl v => exact h
  | inr u' =>
    have hu : u' ≠ u := fun hu => hc (hu ▸ rfl)
    have hcall : (s.wake (.inr u) y).call u' = s.call u' := Function.update_of_ne hu ..
    rw [Watches,hcall]
    exact h

theorem watches_self {u : U} {y : Option (Waking n)} (hy : Waking.pending y = true) : Watches (s.wake (.inr u) y) (.inr u) := by
  have hcall : (s.wake (.inr u) y).call u = y := Function.update_self ..
  rw [Watches,hcall]
  exact hy

omit [DecidableEq U] in
/-- When no worker is on the idle list, each will look again or has been woken, unless another
thread is about to wake it. -/
theorem watched_noIdle (hone : OneSearcher s) (h : Tickets s) {u : U} (hu : s.call u = some .pops) (hidle : s.idle = []) :
    Watches s (.inl (0 : Fin (n + 1))) := by
  by_contra hnot
  simp only [Watches,not_or,Bool.not_eq_false] at hnot
  have hwindow := (past_place hnot.2).1
  obtain ⟨k,hk⟩ := (h.ticket 0).held (by rw [hwindow]; decide)
  cases k with
  | listed =>
    rw [HasTicket,hidle] at hk
    exact List.not_mem_nil hk
  | popped c =>
    have hself : Counted s (.waking (.inr u)) := congrArg Waking.counted hu
    have hother : Counted s (.waking c) := congrArg Waking.counted hk
    obtain rfl := Searcher.waking.inj (hone.unique hother hself)
    exact absurd (hu.symm.trans hk) (by rintro ⟨⟩)
  | woken => exact hnot.1 hk

theorem watched_refused (hone : OneSearcher s) (h : Tickets s) {u : U} (hu : s.call u = some .starts)
    (hcount : s.searching ≠ 0) (hm : ¬Misses s (.wake (.inr u))) : Watched (s.wake (.inr u) none) := by
  intro hpos
  rw [wake_global] at hpos
  by_contra hnone
  have hnot (c : Thread n U) (hc : c ≠ .inr u) : ¬Watches s c := fun hw => hnone ⟨c,watches_wake hc hw⟩
  have hpast (w : Fin (n + 1)) : (s.place w).past = true ∧ s.woken w = false := by
    have := hnot (.inl w) nofun
    simp only [Watches,not_or,Bool.not_eq_false,Bool.not_eq_true] at this
    exact ⟨this.2,this.1⟩
  -- The one counted is an outside thread, and it is not about to take or wake a worker.
  obtain ⟨z,hz⟩ := hone.held hcount
  have hback : ∃ v, s.call v = some .givesBack := by
    cases z with
    | flag w =>
      have hwoken := h.flagged w hz (past_place (hpast w).1).2.1
      exact absurd ((hpast w).2.symm.trans hwoken) nofun
    | ends w => exact absurd ((past_place (hpast w).1).2.2.1.symm.trans hz) nofun
    | waking c =>
      cases c with
      | inl w =>
        have hz : Waking.counted (s.place w).waking = true := hz
        rw [(past_place (hpast w).1).2.2.2] at hz
        cases hz
      | inr v =>
        have hz : Waking.counted (s.call v) = true := hz
        have hvu : (.inr v : Thread n U) ≠ .inr u := by
          rintro hvu
          rw [Sum.inr.inj hvu,hu] at hz
          cases hz
        have hv := hnot (.inr v) hvu
        cases hy : s.call v with
        | none => rw [hy] at hz; cases hz
        | some y =>
          rw [Watches,hy] at hv
          cases y with
          | givesBack => exact ⟨v,hy⟩
          | starts | pops | wakes _ => exact absurd rfl hv
  refine hm ⟨u,rfl,hu,hcount,hpos,hpast,hback,fun v hv hs => ?_⟩
  exact hnot (.inr v) (fun h => hv (Sum.inr.inj h)) (congrArg Waking.pending hs)

theorem steps_watched (hone : OneSearcher s) (htickets : Tickets s) (h : Watched s) (hm : ¬Misses s a) (hs : Steps s a t) :
    Watched t := by
  cases hs with
  | silent hq => exact h.silent hq
  | @acquires w | @takes w | @searches w | @registers w | @unregisters w =>
    exact watched_of_place (w := w) (by rw [goto_place_self]; rfl)
  | @popOwn w _ l | @popGlobal w l => exact watched_of_place (w := w) (by rw [goto_place_self]; cases l <;> rfl)
  | @robs w _ l | @moves w _ l => exact watched_of_place (w := w) (by rw [goto_place_self]; cases l <;> rfl)
  | @stops w x hw | @wakesUp w x hw =>
    refine watched_of_place (w := w) ?_
    rcases hw with ⟨-,rfl⟩ | ⟨-,rfl⟩ <;> rw [goto_place_self] <;> rfl
  | @ends w x hw =>
    refine watched_of_place (w := w) ?_
    rcases hw with ⟨-,rfl⟩ | ⟨-,rfl | rfl⟩ <;> rw [goto_place_self] <;> rfl
  | queuesOwn => exact watched_worker
  | @queuesGlobal u _ => exact fun _ => ⟨.inr u,watches_self rfl⟩
  | @counts c hc _ | @popsIdle c w hc _ =>
    cases c with
    | inl v => exact watched_worker
    | inr u => exact fun _ => ⟨.inr u,watches_self rfl⟩
  | @refused c hc hcount =>
    cases c with
    | inl v => exact watched_worker
    | inr u => exact watched_refused hone htickets hc hcount hm
  | @noIdle c hc hidle =>
    cases c with
    | inl v => exact watched_worker
    | inr u => exact fun _ => ⟨.inl 0,watches_wake nofun (watched_noIdle hone htickets hc hidle)⟩
  | @givesBack c hc =>
    cases c with
    | inl v => exact watched_worker
    | inr u =>
      intro hpos
      rw [wake_global] at hpos
      obtain ⟨d,hd⟩ := h hpos
      have hdu : d ≠ .inr u := by
        rintro rfl
        have hc : s.call u = some .givesBack := hc
        rw [Watches,hc] at hd
        cases hd
      have hsame : Watches { s with searching := s.searching - 1 } d := by cases d <;> exact hd
      exact ⟨d,watches_wake hdu hsame⟩
  | @wakes c w _ =>
    refine fun _ => ⟨.inl w,.inl ?_⟩
    rw [wake_woken]
    exact Function.update_self ..

/-! ### Every run -/

/-- A queue holds a task while every worker sleeps, none has been woken, and no thread is on its way
to wake one. -/
structure Stranded (s : State n U) : Prop where
  task : 0 < s.global ∨ ∃ p, 0 < s.queue p
  asleep : ∀ w, (s.place w).asleep = true ∧ s.woken w = false
  calls : ∀ u, s.call u = none ∨ s.call u = some .givesBack

/-- A worker about to be woken to search is registered as idle or about to sleep, or asleep. -/
def WakesIdle (s : State n U) : Prop := ∀ c w, s.waking c = some (.wakes w) → (s.place w).window = true

omit [DecidableEq U] in
theorem Tickets.wakesIdle (h : Tickets s) : WakesIdle s := by
  intro c w hc
  by_contra hw
  exact h.unregistered (Bool.not_eq_true _ ▸ hw) (.popped c) hc

structure Inv (s : State n U) : Prop where
  processors : Processors s
  searcher : OneSearcher s
  tickets : Tickets s
  queues : Queues s

omit [DecidableEq U] in
theorem inv_init : Inv (init : State n U) := ⟨processors_init,oneSearcher_init,tickets_init,queues_init⟩

theorem step_inv (h : Inv s) (hs : step s a = some t) : Inv t := by
  have hsteps := steps_of_step h.processors hs
  exact ⟨steps_processors h.processors hsteps,steps_oneSearcher h.searcher hsteps,steps_tickets h.searcher h.tickets hsteps,
    steps_queues h.processors h.queues hsteps⟩

omit [DecidableEq U] in
theorem Inv.sleeps (h : Inv s) (hs : Stranded s) (w : Fin (n + 1)) : s.place w = .sleeps := by
  obtain ⟨hasleep,hwoken⟩ := hs.asleep w
  cases hw : s.place w with
  | sleeps => rfl
  | sleepsFound =>
    obtain ⟨k,hk⟩ := (h.tickets.ticket w).held (by rw [hw]; exact one_ne_zero)
    cases k with
    | listed => exact absurd hk (h.tickets.sleepsFound w hw)
    | woken => exact absurd (hwoken.symm.trans hk) nofun
    | popped c =>
      cases c with
      | inl v =>
        have hk : (s.place v).waking = some (.wakes w) := hk
        exact absurd ((asleep_waking (hs.asleep v).1).symm.trans hk) nofun
      | inr u =>
        have hk : s.call u = some (.wakes w) := hk
        rcases hs.calls u with hu | hu <;> exact absurd (hu.symm.trans hk) nofun
  | _ => rw [hw] at hasleep; cases hasleep

omit [DecidableEq U] in
theorem Inv.notStranded (h : Inv s) (hw : Watched s) : ¬Stranded s := by
  intro hs
  rcases hs.task with hpos | ⟨p,hpos⟩
  · obtain ⟨c,hc⟩ := hw hpos
    cases c with
    | inl w =>
      rcases hc with hc | hc
      · exact absurd ((hs.asleep w).2.symm.trans hc) nofun
      · rw [h.sleeps hs w] at hc
        cases hc
    | inr u =>
      rw [Watches] at hc
      rcases hs.calls u with hu | hu <;> rw [hu] at hc <;> cases hc
  · cases ho : s.owner p with
    | none =>
      have := h.queues.unowned p ho
      omega
    | some w =>
      have hw := h.sleeps hs w
      rcases (h.processors.owner p w).mp ho with hp | hp
      · have := h.queues.dry w p (by rw [hw]; rfl) hp
        omega
      · rw [hw] at hp
        cases hp

/-- A run none of whose steps misses strands no task in any state it reaches, and no run wakes a
worker to search that is not registered idle or about to sleep. -/
theorem nextTask_notStranded (as : List (Action n U)) :
    (Exec.StepsMeet step (fun s a => ¬Misses s a) init as → Exec.HoldsAlong step (fun s => ¬Stranded s) init as) ∧
      Exec.HoldsAlong step WakesIdle init as := by
  constructor
  · intro hc
    have h := Exec.holdsAlong_of_stepsMeet (P := fun s => Inv s ∧ Watched s) ⟨inv_init,fun hpos => absurd hpos (Nat.lt_irrefl 0)⟩
      (fun s a t h hm hs => ⟨step_inv h.1 hs,steps_watched h.1.searcher h.1.tickets h.2 hm (steps_of_step h.1.processors hs)⟩) hc
    exact fun pre hpre u hu => (h pre hpre u hu).1.notStranded (h pre hpre u hu).2
  · intro pre _ u hu
    exact (Exec.exec_invariant inv_init (fun s a t => step_inv) hu).tickets.wakesIdle

/-- A worker takes what an outside thread queued. -/
theorem nextTask_notStranded_taken : Exec.HoldsAlong step (fun s => ¬Stranded s) (init : State 0 (Fin 2))
    [.makeRunnable (.inr 0),.work 0,.wake (.inr 0),.work 0] :=
  (nextTask_notStranded _).1
    (Exec.stepsMeet_cons (by decide) rfl (Exec.stepsMeet_cons (by decide) rfl
      (Exec.stepsMeet_cons (by decide) rfl (Exec.stepsMeet_cons (by decide) rfl Exec.stepsMeet_nil))))

/-- One worker, and two outside threads that each queue a task. The first finds the worker busy. The
worker takes its task, runs it and looks for the last time; the second then leaves its own task to
the first, which has not counted itself out yet. -/
def missedTask : List (Action 0 (Fin 2)) :=
  [.makeRunnable (.inr 0),.wake (.inr 0),.wake (.inr 0)] ++ List.replicate 6 (.work 0) ++ [.leave 0] ++
    List.replicate 10 (.work 0) ++ [.makeRunnable (.inr 1),.wake (.inr 1),.wake (.inr 0)]

theorem nextTask_strands : ∃ s, Exec.exec step init missedTask = some s ∧ Stranded s ∧ ∀ u, s.call u = none :=
  ⟨_,rfl,⟨.inl (by decide),by decide,by decide⟩,by decide⟩

end Ens.Tasks.Scheduler
