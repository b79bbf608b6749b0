import Ens.Tasks.WaitReasons
import Ens.Logic.Exec

/-! # How a wait ends

Each waiter that is woken sends the task one wake. As long as no waiter is woken whose wait the task
gives up without parking, the wake the task is owed is that of the wait it is in, and a park ends
for the waiter of its own wait.
-/
set_option linter.all false
namespace Ens.Tasks.Waits
open Exec Park
variable {W U : Type} [DecidableEq W] [DecidableEq U]
variable {own : List ℕ} {s t : State W U} {a : Action W U} {x : Option U} {w : ℕ}

/-- The step wakes no waiter whose wait was given up without parking, and gives up the wait of no
waiter that was woken. -/
def clean (s : State W U) : Action W U → Bool
  | .next =>
    match s.phase with
    | .reads (.skip w) (f :: _) => !(s.asked f && s.woken w)
    | _ => true
  | .watched y _ =>
    match s.phase with
    | .watches w _ => y = .watching || !s.woken w
    | _ => true
  | .wake u =>
    match s.wakers u with
    | .holds _ w | .signals w => !s.gaveUp w
    | _ => true
  | .wakeDue w => !s.gaveUp w
  | _ => true

/-- A wait ended for the reason it reports: a park for the waiter of its wait, and that for a reason
the wait has; an event wait as arrived for a watch that was ready, its token or its deadline; and
with a cancel for a flag by which the task sees itself cancelled. -/
structure Reported (own : List ℕ) (s : State W U) : Prop where
  park : ∀ w, s.phase = .resumes w → s.woken w ∧ Reason s w
  arrived : ∀ w c, s.phase = .answers w (.event .arrived c) → ∃ v d, w = some v ∧ (s.waits v).call = .events d ∧
    ((s.waits v).ready ∨ Fired s v ∨ (0 ≤ d ∧ d ≤ s.clock))
  cancelled : ∀ w o, s.phase = .answers w o → o = .threw ∨ (∃ c, o = .event .cancelled c) →
    ∃ f ∈ s.flags own, s.asked f

/-! ### The wake that is owed -/

/-- Whether a wake was meant for the task: one put a fresh task in the run queue, and later ones
are for the wait it is in. -/
def Phase.due (woken : ℕ → Bool) : Phase → Bool
  | .starts => true
  | y => y.live.elim false woken

structure Placed (s : State W U) : Prop where
  stage : Stage s.park s.phase.location (s.phase.due s.woken)
  known : ∀ w < s.issued, s.woken w ∨ s.gaveUp w ∨ s.phase.live = some w

theorem placed_init : Placed (init : State W U) := ⟨stage_init,nofun⟩

/-- A phase the task is in the same place in, in the same wait. -/
def Phase.Like (y z : Phase) : Prop := z.live = y.live ∧ z.location = y.location ∧ ∀ f, z.due f = y.due f

omit [DecidableEq W] [DecidableEq U] in
theorem turns_like {y z : Phase} (h : Turns own s y z) : y.Like z := by
  cases h with
  | @consults c => cases c <;> exact ⟨rfl,rfl,fun _ => rfl⟩
  | @reads c _ _ _ => cases c <;> exact ⟨rfl,rfl,fun _ => rfl⟩
  | _ => exact ⟨rfl,rfl,fun _ => rfl⟩

theorem due_eq {y : Phase} {f : ℕ → Bool} (h : y ≠ .starts) : y.due f = y.live.elim false f := by
  cases y <;> first | exact absurd rfl h | rfl

theorem due_live {y : Phase} {f : ℕ → Bool} (h : y.live = some w) : y.due f = f w := by
  rw [due_eq (by rintro rfl; cases h),h]
  rfl

theorem due_none {y : Phase} {f : ℕ → Bool} (h : y.live = none) (hs : y ≠ .starts) : y.due f = false := by
  rw [due_eq hs,h]
  rfl

theorem Placed.goto {y : Phase} (h : Placed s) (hp : s.phase = y) (hy : y.Like t.phase) (hpark : t.park = s.park)
    (hissued : t.issued = s.issued) (hwoken : t.woken = s.woken) (hgave : t.gaveUp = s.gaveUp) : Placed t := by
  subst hp
  obtain ⟨hl,hloc,hd⟩ := hy
  refine ⟨by rw [hpark,hloc,hwoken,hd]; exact h.stage,fun w hw => ?_⟩
  rw [hwoken,hgave,hl]
  exact h.known w (hissued ▸ hw)

omit [DecidableEq W] [DecidableEq U] in
theorem Refs.fresh (h : Refs s) : s.woken s.issued = false := by
  by_contra hw
  exact Nat.lt_irrefl _ (h.woken _ (by simpa using hw)).1

theorem Placed.issue (h : Placed s) (hr : Refs s) (hpark : t.park = s.park) (hissued : t.issued = s.issued + 1)
    (hwoken : t.woken = s.woken) (hgave : t.gaveUp = s.gaveUp) (hloc : t.phase.location = .on)
    (hlive : t.phase.live = some s.issued) (hold : s.phase.location = .on) (hnone : s.phase.live = none) : Placed t := by
  have hdue : s.phase.due s.woken = false := due_none hnone (by rintro hs; rw [hs] at hold; cases hold)
  have hnew : t.phase.due t.woken = false := by rw [due_live hlive,hwoken,hr.fresh]
  refine ⟨by rw [hpark,hloc,hnew,← hold,← hdue]; exact h.stage,fun w hw => ?_⟩
  rw [hissued] at hw
  rw [hwoken,hgave,hlive]
  rcases Nat.lt_succ_iff_lt_or_eq.mp hw with hw | rfl
  · rcases h.known w hw with hk | hk | hk
    · exact .inl hk
    · exact .inr (.inl hk)
    · rw [hnone] at hk; cases hk
  · exact .inr (.inr rfl)

theorem moves_placed (h : Placed s) (hr : Refs s) (hm : Moves own s t) : Placed t := by
  cases hm with
  | turns hp ht => exact h.goto hp (turns_like ht) rfl rfl rfl rfl
  | bodies hp => exact h.goto rfl ⟨rfl,rfl,fun _ => rfl⟩ rfl rfl rfl rfl
  | issues hp _ hlive hon _ _ => subst hp; exact h.issue hr rfl rfl rfl rfl rfl rfl hon hlive
  | issuesUnblocked hp _ => exact h.issue hr rfl rfl rfl rfl rfl rfl (by rw [hp]; rfl) (by rw [hp]; rfl)
  | enlists hp => exact h.issue hr rfl rfl rfl rfl rfl rfl (by rw [hp]; rfl) (by rw [hp]; rfl)
  | drops hp | discharges hp | blocks hp | schedules hp => exact h.goto hp ⟨rfl,rfl,fun _ => rfl⟩ rfl rfl rfl rfl
  | lists hp _ hy =>
    rcases hy with rfl | ⟨d,rfl⟩
    all_goals exact h.goto hp ⟨rfl,rfl,fun _ => rfl⟩ rfl rfl rfl rfl
  | @leaves w y b m hp _ hy =>
    subst hy
    cases b
    all_goals exact h.goto hp ⟨rfl,rfl,fun _ => rfl⟩ rfl rfl rfl rfl
  | unblocks hp hy =>
    rcases hy with rfl | rfl | rfl
    all_goals exact h.goto hp ⟨rfl,rfl,fun _ => rfl⟩ rfl rfl rfl rfl

omit [DecidableEq W] [DecidableEq U] in
theorem givesUp_unwoken (h : GivesUp s a w t) (hc : clean s a) : s.woken w = false := by
  cases h with
  | skips hp hf => simpa [clean,hp,hf] using hc
  | isReady hp => simpa [clean,hp] using hc
  | fails hp hx _ => simpa [clean,hp,hx] using hc

omit [DecidableEq W] [DecidableEq U] in
theorem givesUp_place (h : GivesUp s a w t) : s.phase.live = some w ∧ s.phase.location = .on ∧ t.phase.live = none ∧
    t.phase.location = .on ∧ t.park = s.park ∧ t.issued = s.issued ∧ t.woken = s.woken ∧
    t.gaveUp = Function.update s.gaveUp w true := by
  cases h with
  | skips hp _ | isReady hp | fails hp _ _ => rw [hp]; exact ⟨rfl,rfl,rfl,rfl,rfl,rfl,rfl,rfl⟩

theorem givesUp_placed (h : Placed s) (hg : GivesUp s a w t) (hc : clean s a) : Placed t := by
  obtain ⟨hlive,hon,hnone,hon',hpark,hissued,hwoken,hgave⟩ := givesUp_place hg
  have hdue : s.phase.due s.woken = false := (due_live hlive).trans (givesUp_unwoken hg hc)
  have hdue' : t.phase.due t.woken = false := due_none hnone (by rintro hs; rw [hs] at hon'; cases hon')
  refine ⟨by rw [hpark,hon',hdue',← hon,← hdue]; exact h.stage,fun v hv => ?_⟩
  rw [hwoken,hgave]
  rcases h.known v (hissued ▸ hv) with hk | hk | hk
  · exact .inl hk
  · by_cases hvw : v = w <;> simp [hvw,hk]
  · cases hlive.symm.trans hk
    simp

/-! ### Waking, parking and coming back -/

theorem live_location {y : Phase} (h : y.live = some w) : y.location = .on ∨ ∃ v, y = .parked v := by
  cases y <;> first | exact .inl rfl | exact .inr ⟨_,rfl⟩ | cases h

theorem wakes_placed (h : Placed s) (hlt : w < s.issued) (hc : s.gaveUp w = false) (hw : Wakes s x w t) : Placed t := by
  cases hw with
  | late _ => exact h
  | @wakes p hwoken hp =>
    have hlive : s.phase.live = some w := by simpa [hwoken,hc] using h.known w hlt
    have hdue : s.phase.due s.woken = false := (due_live hlive).trans hwoken
    have hstage := h.stage
    rw [hdue] at hstage
    have hdue' : s.phase.due (Function.update s.woken w true) = true := (due_live hlive).trans (Function.update_self ..)
    refine ⟨?_,fun v hv => ?_⟩
    · show Stage p s.phase.location (s.phase.due (Function.update s.woken w true))
      rw [hdue']
      rcases live_location hlive with hl | ⟨v,hv⟩
      · rw [hl] at hstage ⊢
        exact stage_on_step hstage hp rfl
      · rw [hv] at hstage ⊢
        exact stage_off_step hstage hp rfl
    · rcases h.known v hv with hk | hk
      · by_cases hvw : v = w <;> simp [hvw,hk]
      · exact .inr hk

theorem parking_stage {p q : Park.State W (Option U)} {b : Park.Action W (Option U)} {l : Location} {k : Bool}
    (h : Stage p l k) (hb : match b with | .take _ | .park _ | .finish _ | .unpark _ => False | _ => True)
    (hs : Park.Steps p b q) : Stage q l k := by
  cases l with
  | on =>
    cases b with
    | take _ | park _ | finish _ | unpark _ => exact hb.elim
    | read _ | swap _ => exact stage_on_step h hs
    | completeSwap _ | completeWrite _ | completeQueue _ | queue _ => exact (stage_on_step h hs).elim
  | off =>
    cases b with
    | take _ | park _ | finish _ | unpark _ => exact hb.elim
    | read _ | swap _ | completeSwap _ | completeWrite _ | completeQueue _ | queue _ => exact stage_off_step h hs
  | ended =>
    obtain ⟨u,rfl⟩ := stage_ended_step h hs
    cases hb

theorem steps_placed (hr : Refs s) (h : Placed s) (hs : Steps own s a t) (hc : clean s a) : Placed t := by
  have hstage := h.stage
  cases hs with
  | moves hm => exact moves_placed h hr hm
  | givesUp hg => exact givesUp_placed h hg hc
  | others ho =>
    exact h.goto rfl (by cases ho <;> exact ⟨rfl,rfl,fun _ => rfl⟩) (by cases ho <;> rfl) (by cases ho <;> rfl)
      (by cases ho <;> rfl) (by cases ho <;> rfl)
  | @park v w p hp hs =>
    rw [hp] at hstage
    refine ⟨stage_on_step hstage hs,fun v hv => ?_⟩
    have := h.known v hv
    rwa [hp] at this
  | @finish v p hp hs =>
    rw [hp] at hstage
    refine ⟨stage_on_step hstage hs rfl,fun v hv => ?_⟩
    have := h.known v hv
    rwa [hp] at this
  | @starts v p hp hs =>
    rw [hp] at hstage
    refine ⟨(stage_off_step hstage hs).2,fun v hv => ?_⟩
    have := h.known v hv
    rwa [hp] at this
  | @resumes v w p hp hs =>
    rw [hp] at hstage
    obtain ⟨hwoken,hon⟩ := stage_off_step hstage hs
    refine ⟨hon,fun v hv => ?_⟩
    have := h.known v hv
    rw [hp] at this
    rcases this with hk | hk | hk
    · exact .inl hk
    · exact .inr (.inl hk)
    · cases hk
      exact .inl hwoken
  | parking hb hs => exact ⟨parking_stage hstage hb hs,h.known⟩
  | wakeHeld hu hw =>
    obtain ⟨hstage,hknown⟩ := wakes_placed h (hr.holds _ _ _ hu).1 (by simpa [clean,hu] using hc) hw
    exact ⟨hstage,hknown⟩
  | wakeSignalled hu hw =>
    obtain ⟨hstage,hknown⟩ := wakes_placed h (hr.signals _ _ hu).1 (by simpa [clean,hu] using hc) hw
    exact ⟨hstage,hknown⟩
  | wakeDue hws hmem hw =>
    obtain ⟨hstage,hknown⟩ := wakes_placed h (hr.due _ hws _ hmem).1 (by simpa [clean] using hc) hw
    exact ⟨hstage,hknown⟩

/-! ### What is reported -/

structure Answered (own : List ℕ) (s : State W U) (w : Option ℕ) (o : Outcome) : Prop where
  arrived : ∀ c, o = .event .arrived c → ∃ v d, w = some v ∧ (s.waits v).call = .events d ∧
    ((s.waits v).ready ∨ Fired s v ∨ (0 ≤ d ∧ d ≤ s.clock))
  cancelled : o = .threw ∨ (∃ c, o = .event .cancelled c) → ∃ f ∈ s.flags own, s.asked f

def Explains (own : List ℕ) (s : State W U) : Phase → Prop
  | .resumes w => s.woken w ∧ Reason s w
  | .unblocks w _ | .discharges w | .consults (.last w) => Reason s w
  | .reads (.last w) rest => Fired s w ∨ Passed s w ∨ s.signalled w ∨ ∃ f ∈ rest, s.asked f
  | .drops w k _ => (k = .arrived → (s.waits w).ready) ∧ k ≠ .cancelled
  | .answers w o => Answered own s w o
  | _ => True

omit [DecidableEq W] [DecidableEq U] in
theorem answered_other {y : Option ℕ} {o : Outcome} (ha : ∀ c, o ≠ .event .arrived c) (hc : ∀ c, o ≠ .event .cancelled c)
    (ht : o ≠ .threw) : Answered own s y o :=
  ⟨fun c h => absurd h (ha c),fun h => h.elim (absurd · ht) fun ⟨c,h⟩ => absurd h (hc c)⟩

omit [DecidableEq W] [DecidableEq U] in
theorem answered_stopped {y : Option ℕ} {o : Outcome} {f : ℕ} (ha : ∀ c, o ≠ .event .arrived c) (hf : f ∈ s.flags own)
    (hasked : s.asked f) : Answered own s y o :=
  ⟨fun c h => absurd h (ha c),fun _ => ⟨f,hf,hasked⟩⟩

omit [DecidableEq W] [DecidableEq U] in
theorem explains_keep {y : Phase} (h : Explains own s y) (hsuits : Suits own s y) (hk : Keeps s t) (hb : t.bodies = s.bodies)
    (hwoken : ∀ w, s.woken w → t.woken w) : Explains own t y := by
  have hreason {w : ℕ} (hw : y.waiter = some w) (hr : Reason s w) : Reason t w := hk.reason (hsuits.waiter w hw).1 hr
  cases y with
  | resumes w => exact ⟨hwoken w h.1,hreason rfl h.2⟩
  | unblocks w b | discharges w => exact hreason rfl h
  | consults c => cases c with
    | last w => exact hreason rfl h
    | _ => trivial
  | reads c rest => cases c with
    | last w =>
      have hlt := (hsuits.waiter w rfl).1
      rcases h with hf | hp | hm | ⟨f,hf,ha⟩
      · exact (hk.firedOr hlt (.inl hf)).imp_right .inl
      · exact (hk.firedOr hlt (.inr hp)).imp_right .inl
      · exact .inr (.inr (.inl (hk.signalled w hm)))
      · exact .inr (.inr (.inr ⟨f,hf,hk.asked f ha⟩))
    | _ => trivial
  | drops w k c => exact ⟨fun he => hk.ready w (hsuits.waiter w rfl).1 (h.1 he),h.2⟩
  | answers w o =>
    refine ⟨fun c he => ?_,fun he => ?_⟩
    · obtain ⟨v,d,rfl,hc,hv⟩ := h.arrived c he
      have hlt := (hsuits.waiter v rfl).1
      refine ⟨v,d,rfl,(hk.call v hlt).trans hc,?_⟩
      rcases hv with hr | ⟨k,hk',hf⟩ | ⟨h0,hd⟩
      · exact .inl (hk.ready v hlt hr)
      · exact .inr (.inl ⟨k,(hk.token v hlt).trans hk',hk.fired hf⟩)
      · exact .inr (.inr ⟨h0,Int.le_trans hd hk.clock⟩)
    · obtain ⟨f,hf,ha⟩ := h.cancelled he
      exact ⟨f,by rwa [State.flags,hb],hk.asked f ha⟩
  | _ => trivial

omit [DecidableEq W] [DecidableEq U] in
theorem turns_explains {y z : Phase} (h : Explains own s y) (hsuits : Suits own s y) (hr : Refs s) (ht : Turns own s y z) :
    Explains own s z := by
  cases ht with
  | answersNone ho => rcases ho with rfl | rfl <;> exact answered_other nofun nofun nofun
  | awaits | sleeps | loops | enlists | schedules _ _ | parks | lists | again | watches | blocks | returns => trivial
  | slept | waited => exact answered_other nofun nofun nofun
  | @consults c => cases c with
    | last w =>
      rcases h with hf | hp | hm | ⟨f,hf,ha⟩
      · exact .inl hf
      · exact .inr (.inl hp)
      · exact .inr (.inr (.inl hm))
      · exact .inr (.inr (.inr ⟨f,(hsuits.waiter w rfl).2 ▸ hf,ha⟩))
    | _ => trivial
  | @reads c f rest hnot => cases c with
    | last w =>
      rcases h with hf | hp | hm | ⟨g,hg,ha⟩
      · exact .inl hf
      · exact .inr (.inl hp)
      · exact .inr (.inr (.inl hm))
      · rcases List.mem_cons.mp hg with rfl | hg
        · rw [hnot] at ha; cases ha
        · exact .inr (.inr (.inr ⟨g,hg,ha⟩))
    | _ => trivial
  | stopsFirst hf => exact answered_stopped nofun (hsuits.reads _ _ rfl (List.mem_cons_self ..)) hf
  | stopsLoop hf => exact answered_stopped nofun (hsuits.reads _ _ rfl (List.mem_cons_self ..)) hf
  | stopsLast hf ho =>
    refine answered_stopped ?_ (hsuits.reads _ _ rfl (List.mem_cons_self ..)) hf
    rcases ho with rfl | rfl | rfl <;> nofun
  | @arrived w d hc =>
    refine ⟨fun c _ => ⟨w,d,rfl,hc,.inr ?_⟩,fun ho => by rcases ho with ho | ⟨c,ho⟩ <;> cases ho⟩
    rcases h with hf | ⟨e,he,hp⟩ | hm | ⟨f,hf,_⟩
    · exact .inl hf
    · obtain ⟨rfl,h0⟩ := (hr.timed e w he).2 d hc
      exact .inr ⟨h0,hp⟩
    · have := (hr.signalled w hm).2
      rw [hc] at this
      cases this
    · cases hf
  | comesBack => exact h.2

omit [DecidableEq W] [DecidableEq U] in
theorem moves_explains (h : Explains own s s.phase) (hf : Fits own s) (hr : Refs s) (hm : Moves own s t) : Explains own t t.phase := by
  have hk := moves_keeps hm
  cases hm with
  | @turns y z hp ht =>
    subst hp
    exact explains_keep (turns_explains h hf.suits hr ht) (turns_suits hf.suits ht) hk rfl fun _ => id
  | bodies hp =>
    rw [show _ = Phase.runs from hp]
    trivial
  | issues _ _ _ _ _ _ | issuesUnblocked _ _ | enlists _ | blocks _ | schedules _ => trivial
  | drops hp =>
    rw [hp] at h
    refine ⟨fun c he => ?_,fun ho => ?_⟩
    · cases he
      obtain ⟨d,hd⟩ := hf.suits.drops _ _ _ hp
      exact ⟨_,d,rfl,hd,.inl (h.1 rfl)⟩
    · rcases ho with ho | ⟨c,ho⟩
      · cases ho
      · cases ho
        exact absurd rfl h.2
  | discharges hp =>
    rw [hp] at h
    exact h
  | lists _ _ hy => rcases hy with rfl | ⟨d,rfl⟩ <;> trivial
  | @leaves w y b m hp _ hy =>
    rw [hp] at h
    subst hy
    cases b with
    | true => exact h.2
    | false => exact answered_other nofun nofun nofun
  | unblocks hp hy =>
    rw [hp] at h
    rcases hy with rfl | rfl | rfl
    · exact h
    · exact h
    · exact answered_other nofun nofun nofun

omit [DecidableEq W] [DecidableEq U] in
theorem givesUp_explains (hf : Fits own s) (hg : GivesUp s a w t) : Explains own t t.phase := by
  cases hg with
  | @skips w f rest hp ha =>
    have hflags := (hf.suits.waiter w (by rw [hp]; rfl)).2
    exact .inr (.inr (.inr ⟨f,hflags ▸ hf.suits.reads _ _ hp (List.mem_cons_self ..),ha⟩))
  | isReady _ => exact ⟨fun _ => by simp,nofun⟩
  | fails _ _ hk => exact ⟨by rcases hk with rfl | rfl <;> nofun,by rcases hk with rfl | rfl <;> nofun⟩

theorem wakes_frame (h : Wakes s x w t) : t.phase = s.phase ∧ t.bodies = s.bodies ∧ ∀ v, s.woken v → t.woken v := by
  cases h with
  | late _ => exact ⟨rfl,rfl,fun _ => id⟩
  | wakes _ _ =>
    refine ⟨rfl,rfl,fun v hv => ?_⟩
    by_cases hvw : v = w <;> simp [hvw,hv]

structure Sound (own : List ℕ) (s : State W U) : Prop where
  fits : Fits own s
  refs : Refs s
  placed : Placed s
  explains : Explains own s s.phase

theorem sound_init : Sound own (init : State W U) := ⟨fits_init,refs_init,placed_init,trivial⟩

theorem steps_explains (h : Sound own s) (hs : Steps own s a t) (hc : clean s a) : Explains own t t.phase := by
  obtain ⟨hf,hr,hp,hexp⟩ := h
  have hk := steps_keeps hs
  cases hs with
  | moves hm => exact moves_explains hexp hf hr hm
  | givesUp hg => exact givesUp_explains hf hg
  | others ho =>
    have := explains_keep hexp hf.suits hk (by cases ho <;> rfl) (by cases ho <;> exact fun _ => id)
    cases ho <;> exact this
  | park _ _ | finish _ _ | starts _ _ => trivial
  | @resumes v w p hphase hs =>
    have hstage := hp.stage
    rw [hphase] at hstage
    have hwoken : s.woken w := (stage_off_step hstage hs).1
    exact ⟨hwoken,(hr.woken w hwoken).2⟩
  | parking _ _ => exact explains_keep hexp hf.suits hk rfl fun _ => id
  | wakeHeld _ hw | wakeSignalled _ hw | wakeDue _ _ hw =>
    obtain ⟨hphase,hbodies,hwoken⟩ := wakes_frame hw
    have := explains_keep hexp hf.suits hk hbodies hwoken
    rwa [← hphase] at this

theorem steps_sound (h : Sound own s) (hs : Steps own s a t) (hc : clean s a) : Sound own t :=
  ⟨steps_fits h.fits hs,steps_refs h.fits h.refs hs,steps_placed h.refs h.placed hs hc,steps_explains h hs hc⟩

theorem Sound.reported (h : Sound own s) : Reported own s := by
  have hexp := h.explains
  refine ⟨fun w hw => ?_,fun w c hw => ?_,fun w o hw ho => ?_⟩ <;> rw [hw] at hexp
  · exact hexp
  · exact hexp.arrived c rfl
  · exact hexp.cancelled ho

/-- Along every run in which no waiter is woken whose wait was given up without parking, and no wait
is given up whose waiter was woken, each wait ends for the reason it reports. -/
theorem waits_reported (own : List ℕ) (as : List (Action W U)) (h : StepsMeet (step own) (fun s a => clean s a) init as) :
    HoldsAlong (step own) (Reported own) init as := by
  have hsound : HoldsAlong (step own) (Sound own) init as :=
    holdsAlong_of_stepsMeet sound_init (fun s a t hs hc ht => steps_sound hs (steps_of_step ht) hc) h
  exact fun pre hpre u hu => (hsound pre hpre u hu).reported

def arrivedWait : List (Action Unit Unit) :=
  [.take (),.awaitEvents 1 (-1),.next,.next,.next,.watched .watching 0,.next,.next,.next,.park (),.completeSwap (),
    .poll [1],.collect,.wakeDue 0,.read none,.swap none,.queue none,.take (),.next,.next,.next,.next,.next]

theorem waits_reported_arrived : HoldsAlong (step []) (Reported []) init arrivedWait ∧
    (exec (step []) init arrivedWait).map State.phase = some (.answers (some 0) (.event .arrived 0)) :=
  ⟨waits_reported [] arrivedWait (stepsMeet_of_checks (by decide)),by decide⟩

/-- A task waits for an event in a body whose scope is cancelled just before it would park, leaves
the body and waits for another event. -/
def strayWake : List (Action Unit Unit) :=
  [.take (),.enterBody 1,.awaitEvents 1 (-1),.next,.next,.next,.next,.next,.watched .watching 0,.next,
    .cancel () 1,.capture (),.wake (),.read (some ()),.swap (some ()),.cancelled ()] ++ List.replicate 7 .next ++
    [.leaveBody,.awaitEvents 1 (-1),.next,.next,.next,.next,.watched .watching 0,.next,.next,.next,.next,
    .park (),.completeSwap (),.completeWrite (),.completeQueue (),.take ()] ++ List.replicate 6 .next

/-- The wake of the first wait ends the second, which reports an event that did not happen. -/
theorem strayWake_reported : ¬HoldsAlong (step [0]) (Reported [0]) init strayWake := by
  intro h
  have hend : (exec (step [0]) init strayWake).map (fun s => (s.phase,(s.waits 1).call,(s.waits 1).ready,s.fired)) =
      some (.answers (some 1) (.event .arrived 0),.events (-1),false,[]) := by decide
  obtain ⟨s,hs,hv⟩ := Option.map_eq_some_iff.mp hend
  obtain ⟨hphase,hcall,hready,hfired⟩ : s.phase = _ ∧ (s.waits 1).call = _ ∧ (s.waits 1).ready = _ ∧ s.fired = _ := by
    simpa only [Prod.mk.injEq] using hv
  obtain ⟨v,d,hv,hd,hwhy⟩ := (h.last hs).arrived _ _ hphase
  cases hv
  cases hcall.symm.trans hd
  rcases hwhy with hr | ⟨k,-,hk⟩ | ⟨h0,-⟩
  · cases hready.symm.trans hr
  · rw [hfired] at hk
    cases hk
  · exact absurd h0 (by decide)

end Ens.Tasks.Waits
