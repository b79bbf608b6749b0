import Ens.Tasks.Waits

/-! # What each step of the waits does

The steps of the task that change its phase alone, its other steps, the steps of the parking and
the steps of whoever wakes it, each with what it needs and what it changes.
-/
set_option linter.all false
namespace Ens.Tasks.Waits
open Park
variable {W U : Type} [DecidableEq W] [DecidableEq U]

def Phase.live : Phase → Option ℕ
  | .watches w _ | .blocks w | .consults (.skip w) | .reads (.skip w) _ | .lists w | .schedules w _ | .parks w
  | .parked w => some w
  | _ => none

def Phase.waiter : Phase → Option ℕ
  | .drops w _ _ | .resumes w | .unblocks w _ | .discharges w | .consults (.last w) | .reads (.last w) _ => some w
  | .answers w _ => w
  | x => x.live

def Phase.blocked : Phase → Option ℕ
  | .consults (.skip w) | .reads (.skip w) _ | .lists w | .schedules w _ | .parks w | .parked w | .resumes w
  | .unblocks w _ => some w
  | _ => none

def Phase.location : Phase → Location
  | .starts | .parked _ => .off
  | .ended => .ended
  | _ => .on

def Call.blocks : Call → Bool
  | .events _ | .sleep _ => true
  | .monitor blocks _ => blocks

inductive Turns (own : List ℕ) (s : State W U) : Phase → Phase → Prop
  | answersNone {o : Outcome} : o = .event .unwatched 0 ∨ o = .slept → Turns own s .runs (.answers none o)
  | awaits {n : ℕ} {d : ℤ} : Turns own s .runs (.consults (.first n d))
  | sleeps {d : ℤ} : Turns own s .runs (.sleeps d)
  | loops {d : ℤ} : Turns own s (.sleeps d) (.consults (.loop d))
  | slept {d : ℤ} : Turns own s (.sleeps d) (.answers none .slept)
  | consults {c : Check} : Turns own s (.consults c) (.reads c (s.flags own))
  | reads {c : Check} {f : ℕ} {rest : List ℕ} : s.asked f = false → Turns own s (.reads c (f :: rest)) (.reads c rest)
  | stopsFirst {n : ℕ} {d : ℤ} {f : ℕ} {rest : List ℕ} : s.asked f →
      Turns own s (.reads (.first n d) (f :: rest)) (.answers none (.event .cancelled 0))
  | stopsLoop {d : ℤ} {f : ℕ} {rest : List ℕ} : s.asked f →
      Turns own s (.reads (.loop d) (f :: rest)) (.answers none .threw)
  | stopsLast {w f : ℕ} {rest : List ℕ} {o : Outcome} : s.asked f →
      o = .event .cancelled 0 ∨ o = .threw ∨ o = .waited false →
      Turns own s (.reads (.last w) (f :: rest)) (.answers (some w) o)
  | enlists {n : ℕ} {d : ℤ} : Turns own s (.reads (.first n d) []) (.enlists n d)
  | schedules {w : ℕ} {d : ℤ} : ((s.waits w).call = .events d ∨ (s.waits w).call = .sleep d) → 0 ≤ d →
      Turns own s (.reads (.skip w) []) (.schedules w d)
  | parks {w : ℕ} : Turns own s (.reads (.skip w) []) (.parks w)
  | lists {w : ℕ} : Turns own s (.reads (.skip w) []) (.lists w)
  | arrived {w : ℕ} {d : ℤ} : (s.waits w).call = .events d →
      Turns own s (.reads (.last w) []) (.answers (some w) (.event .arrived 0))
  | again {w : ℕ} {d : ℤ} : Turns own s (.reads (.last w) []) (.sleeps d)
  | waited {w : ℕ} : Turns own s (.reads (.last w) []) (.answers (some w) (.waited true))
  | watches {w n m : ℕ} : Turns own s (.watches w n) (.watches w m)
  | blocks {w n : ℕ} : Turns own s (.watches w n) (.blocks w)
  | comesBack {w : ℕ} : Turns own s (.resumes w) (.unblocks w true)
  | returns {w : Option ℕ} {o : Outcome} : Turns own s (.answers w o) .runs

inductive Moves (own : List ℕ) (s : State W U) : State W U → Prop
  | turns {x y : Phase} : s.phase = x → Turns own s x y → Moves own s (s.goto y)
  | bodies {bs : List ℕ} : s.phase = .runs → Moves own s { s with bodies := bs }
  | issues {x : Phase} {c : Call} : s.phase = x → x.blocked = none → x.live = none → x.location = .on → c.blocks →
      (∀ l, c ≠ .events l) → Moves own s ((s.issue own c none).goto (.blocks s.issued))
  | issuesUnblocked {c : Call} : s.phase = .runs → (∀ l, c ≠ .events l) →
      Moves own s ((s.issue own c none).goto (.lists s.issued))
  | enlists {n : ℕ} {d : ℤ} {t : ℕ} : s.phase = .enlists n d → Moves own s
      { (s.issue own (.events d) (some t)).goto (.watches s.issued n) with
        lastToken := t, watched := Function.update s.watched t (some s.issued) }
  | drops {w : ℕ} {k : EventEnd} {c : ℤ} : s.phase = .drops w k c → Moves own s
      { s.goto (.answers (some w) (.event k c)) with
        watched := (s.waits w).token.elim s.watched fun t => Function.update s.watched t none }
  | discharges {w : ℕ} : s.phase = .discharges w → Moves own s
      { s.goto (.consults (.last w)) with
        watched := (s.waits w).token.elim s.watched fun t => Function.update s.watched t none }
  | blocks {w : ℕ} : s.phase = .blocks w → Moves own s { s.goto (.consults (.skip w)) with blockedOn := some w }
  | lists {w : ℕ} {y : Phase} {blocks : Bool} {m : ℤ} : s.phase = .lists w → (s.waits w).call = .monitor blocks m →
      y = .parks w ∨ (∃ d, y = .schedules w d) →
      Moves own s { s.goto y with listed := Function.update s.listed w true }
  | schedules {w : ℕ} {d : ℤ} : s.phase = .schedules w d → Moves own s
      { s.goto (.parks w) with timers := (d,w) :: s.timers, timed := (d,w) :: s.timed }
  | leaves {w : ℕ} {y : Phase} {blocks : Bool} {m : ℤ} : s.phase = .resumes w → (s.waits w).call = .monitor blocks m →
      y = (if blocks then .unblocks w true else .answers (some w) (.waited true)) →
      Moves own s { s.goto y with listed := Function.update s.listed w false }
  | unblocks {w : ℕ} {b : Bool} {y : Phase} : s.phase = .unblocks w b →
      y = .discharges w ∨ y = .consults (.last w) ∨ y = .answers (some w) (.waited false) →
      Moves own s { s.goto y with blockedOn := none }

inductive GivesUp (s : State W U) : Action W U → ℕ → State W U → Prop
  | skips {w f : ℕ} {rest : List ℕ} : s.phase = .reads (.skip w) (f :: rest) → s.asked f →
      GivesUp s .next w ((s.giveUp w).goto (.unblocks w false))
  | isReady {w n : ℕ} {c : ℤ} : s.phase = .watches w n → GivesUp s (.watched .ready c) w
      { (s.giveUp w).goto (.drops w .arrived 0) with waits := Function.update s.waits w { s.waits w with ready := true } }
  | fails {w n : ℕ} {x : WatchState} {c c' : ℤ} {k : EventEnd} : s.phase = .watches w n → x ≠ .watching →
      k = .unwatched ∨ k = .failed → GivesUp s (.watched x c) w ((s.giveUp w).goto (.drops w k c'))

inductive Others (own : List ℕ) (s : State W U) : State W U → Prop
  | cancel {u : U} {f : ℕ} : Others own s { s.setWaker u (.cancels f) with asked := Function.update s.asked f true }
  | captures {u : U} {f w : ℕ} : s.wakers u = .cancels f → s.blockedOn = some w → f ∈ s.flags own →
      Others own s (s.setWaker u (.holds f w))
  | stays : Others own s s
  | cancelled {u : U} : Others own s (s.setWaker u .idle)
  | signal {u : U} {w : ℕ} : s.listed w → Others own s
      { s.setWaker u (.signals w) with
        listed := Function.update s.listed w false, signalled := Function.update s.signalled w true }
  | poll {ts : List ℕ} : Others own s { s with events := .polled ts, fired := ts ++ s.fired }
  | collect {ts : List ℕ} : s.events = .polled ts → Others own s
      { s with
        events := .wakes ((collect ts s.watched).1 ++ (s.timers.filter fun timer => timer.1 ≤ s.clock).map Prod.snd)
        watched := (collect ts s.watched).2
        timers := s.timers.filter fun timer => ¬timer.1 ≤ s.clock }
  | pollAgain : Others own s { s with events := .polls }
  | otherEnlists : Others own s { s with lastToken := s.lastToken + 1 }
  | tick : Others own s { s with clock := s.clock + 1 }

inductive Wakes (s : State W U) (x : Option U) (w : ℕ) : State W U → Prop
  | late : s.woken w → Wakes s x w s
  | wakes {p : Park.State W (Option U)} : s.woken w = false → Park.Steps s.park (.unpark x) p →
      Wakes s x w { s with woken := Function.update s.woken w true, park := p }

inductive Steps (own : List ℕ) (s : State W U) : Action W U → State W U → Prop
  | moves {a : Action W U} {t : State W U} : Moves own s t → Steps own s a t
  | givesUp {a : Action W U} {w : ℕ} {t : State W U} : GivesUp s a w t → Steps own s a t
  | others {a : Action W U} {t : State W U} : Others own s t → Steps own s a t
  | park {v : W} {w : ℕ} {p : Park.State W (Option U)} : s.phase = .parks w → Park.Steps s.park (.park v) p →
      Steps own s (.park v) { s.goto (.parked w) with park := p }
  | finish {v : W} {p : Park.State W (Option U)} : s.phase = .runs → Park.Steps s.park (.finish v) p →
      Steps own s (.finish v) { s.goto .ended with park := p }
  | starts {v : W} {p : Park.State W (Option U)} : s.phase = .starts → Park.Steps s.park (.take v) p →
      Steps own s (.take v) { s.goto .runs with park := p }
  | resumes {v : W} {w : ℕ} {p : Park.State W (Option U)} : s.phase = .parked w → Park.Steps s.park (.take v) p →
      Steps own s (.take v) { s.goto (.resumes w) with park := p }
  | parking {a : Action W U} {b : Park.Action W (Option U)} {p : Park.State W (Option U)} :
      (match b with | .take _ | .park _ | .finish _ | .unpark _ => False | _ => True) → Park.Steps s.park b p →
      Steps own s a { s with park := p }
  | wakeHeld {u : U} {f w : ℕ} {t : State W U} : s.wakers u = .holds f w → Wakes s (some u) w t →
      Steps own s (.wake u) (t.setWaker u (.cancels f))
  | wakeSignalled {u : U} {w : ℕ} {t : State W U} : s.wakers u = .signals w → Wakes s (some u) w t →
      Steps own s (.wake u) (t.setWaker u .idle)
  | wakeDue {w : ℕ} {due : List ℕ} {t : State W U} : s.events = .wakes due → w ∈ due → Wakes s none w t →
      Steps own s (.wakeDue w) { t with events := .wakes (due.erase w) }

variable {own : List ℕ} {s t : State W U} {a : Action W U} {x : Option U} {w : ℕ}

theorem wakes_of_wake (h : s.wake x w = some t) : Wakes s x w t := by
  unfold State.wake at h
  split at h
  · rename_i hw
    cases h
    exact .late hw
  · rename_i hw
    obtain ⟨p,hp,rfl⟩ := Option.map_eq_some_iff.mp h
    exact .wakes (by simpa using hw) (steps_of_step hp)

omit [DecidableEq W] [DecidableEq U] in
theorem moves_await {w : ℕ} {d : ℤ} (hs : s.phase = .reads (.skip w) [])
    (hc : (s.waits w).call = .events d ∨ (s.waits w).call = .sleep d) : Moves own s (s.await w d) := by
  unfold State.await
  split
  · exact .turns hs (.schedules hc ‹_›)
  · exact .turns hs .parks

omit [DecidableEq W] [DecidableEq U] in
theorem moves_goOn {c : Check} (hs : s.phase = .reads c []) : Moves own s (s.goOn own c) := by
  cases c with
  | first n d => exact .turns hs .enlists
  | loop d => exact .issues hs rfl rfl rfl rfl nofun
  | skip w =>
    cases hc : (s.waits w).call with simp only [State.goOn,hc]
    | events d => exact moves_await hs (.inl hc)
    | sleep d => exact moves_await hs (.inr hc)
    | monitor b m => exact .turns hs .lists
  | last w =>
    cases hc : (s.waits w).call with simp only [State.goOn,hc]
    | events d => exact .turns hs (.arrived hc)
    | sleep d => exact .turns hs .again
    | monitor b m => exact .turns hs .waited

omit [DecidableEq W] [DecidableEq U] in
theorem steps_stop {c : Check} {f : ℕ} {rest : List ℕ} (hs : s.phase = .reads c (f :: rest)) (hf : s.asked f) :
    Moves own s (s.stop c) ∨ ∃ w, GivesUp s .next w (s.stop c) := by
  cases c with
  | first n d => exact .inl (.turns hs (.stopsFirst hf))
  | loop d => exact .inl (.turns hs (.stopsLoop hf))
  | skip w => exact .inr ⟨w,.skips hs hf⟩
  | last w =>
    left
    cases hc : (s.waits w).call with simp only [State.stop,hc]
    | events d => exact .turns hs (.stopsLast hf (.inl rfl))
    | sleep d => exact .turns hs (.stopsLast hf (.inr (.inl rfl)))
    | monitor b m => exact .turns hs (.stopsLast hf (.inr (.inr rfl)))

omit [DecidableEq W] [DecidableEq U] in
theorem steps_next (h : s.next own = some t) : Moves own s t ∨ ∃ w, GivesUp s .next w t := by
  unfold State.next at h
  split at h
  case h_1 d hp =>
    cases h
    left
    split
    · exact .turns hp .loops
    · exact .turns hp .slept
  case h_2 c hp => cases h; exact .inl (.turns hp .consults)
  case h_3 c hp => cases h; exact .inl (moves_goOn hp)
  case h_4 c f rest hp =>
    cases h
    split
    · exact steps_stop hp ‹_›
    · exact .inl (.turns hp (.reads (by simpa using ‹¬s.asked f = true›)))
  case h_5 n d hp => cases h; exact .inl (.enlists hp)
  case h_6 w k c hp => cases h; exact .inl (.drops hp)
  case h_7 w hp => cases h; exact .inl (.blocks hp)
  case h_8 w hp =>
    split at h
    · rename_i b m hc
      cases h
      left
      exact .lists hp hc ((ite_eq_or_eq ..).symm.imp id fun hd => ⟨_,hd⟩)
    · cases h
  case h_9 w d hp => cases h; exact .inl (.schedules hp)
  case h_10 w hp =>
    split at h
    · rename_i b m hc
      cases h
      exact .inl (.leaves hp hc rfl)
    · cases h
      exact .inl (.turns hp .comesBack)
  case h_11 w b hp =>
    left
    split at h
    · cases h; exact .unblocks hp (.inl rfl)
    · cases h; exact .unblocks hp (.inr (.inl rfl))
    · cases h
      refine .unblocks hp ?_
      cases b <;> simp
  case h_12 w hp => cases h; exact .inl (.discharges hp)
  case h_13 w o hp => cases h; exact .inl (.turns hp .returns)
  all_goals cases h

omit [DecidableEq W] [DecidableEq U] in
theorem steps_watch {w n : ℕ} {x : WatchState} {c : ℤ} (hs : s.phase = .watches w n) :
    Moves own s (s.watch w n c x) ∨ GivesUp s (.watched x c) w (s.watch w n c x) := by
  cases x with
  | watching =>
    left
    simp only [State.watch]
    split
    · exact .turns hs .blocks
    · exact .turns hs .watches
  | ready => exact .inr (.isReady hs)
  | unwatchable => exact .inr (.fails hs (by decide) (.inl rfl))
  | failed => exact .inr (.fails hs (by decide) (.inr rfl))

theorem steps_of_step (h : step own s a = some t) : Steps own s a t := by
  cases a with
  | next =>
    rcases steps_next h with h | ⟨w,h⟩
    · exact .moves h
    · exact .givesUp h
  | watched x c =>
    simp only [step] at h
    split at h
    · cases h
      rcases steps_watch (c := c) (x := x) ‹_› with h | h
      · exact .moves h
      · exact .givesUp h
    · cases h
  | enterBody f =>
    simp only [step] at h
    split at h
    · rename_i hp
      cases h
      exact .moves (.bodies hp.1)
    · cases h
  | leaveBody =>
    simp only [step] at h
    split at h
    · cases h; exact .moves (.bodies ‹_›)
    · cases h
  | awaitEvents n d =>
    simp only [step] at h
    split at h
    · rename_i hp
      cases h
      split
      · exact .moves (.turns hp (.answersNone (.inl rfl)))
      · exact .moves (.turns hp .awaits)
    · cases h
  | sleep m =>
    simp only [step] at h
    split at h
    · rename_i hp
      cases h
      split
      · exact .moves (.turns hp (.answersNone (.inr rfl)))
      · exact .moves (.turns hp .sleeps)
    · cases h
  | wait b m =>
    simp only [step] at h
    split at h
    · rename_i hp
      cases h
      cases b with
      | true => exact .moves (.issues hp rfl rfl rfl rfl nofun)
      | false => exact .moves (.issuesUnblocked hp nofun)
    · cases h
  | park v =>
    simp only [step] at h
    split at h
    · rename_i hp
      obtain ⟨p,hs,rfl⟩ := Option.map_eq_some_iff.mp h
      exact .park hp (Park.steps_of_step hs)
    · cases h
  | finish v =>
    simp only [step] at h
    split at h
    · rename_i hp
      obtain ⟨p,hs,rfl⟩ := Option.map_eq_some_iff.mp h
      exact .finish hp (Park.steps_of_step hs)
    · cases h
  | take v =>
    obtain ⟨p,hs,h⟩ := Option.bind_eq_some_iff.mp h
    split at h
    · rename_i hp
      cases h
      exact .starts hp (Park.steps_of_step hs)
    · rename_i hp
      cases h
      exact .resumes hp (Park.steps_of_step hs)
    · cases h
  | completeSwap v | completeWrite v | completeQueue v | read x | swap x | queue x =>
    obtain ⟨p,hs,rfl⟩ := Option.map_eq_some_iff.mp h
    exact .parking (by trivial) (Park.steps_of_step hs)
  | cancel u f =>
    simp only [step] at h
    split at h
    · cases h; exact .others .cancel
    · cases h
  | capture u =>
    simp only [step] at h
    split at h
    · rename_i f hu
      split at h
      · split at h
        · rename_i w hw
          cases h
          split
          · exact .others (.captures hu hw ‹_›)
          · exact .others .stays
        · cases h; exact .others .stays
      · cases h
    · cases h
  | cancelled u =>
    simp only [step] at h
    split at h
    · split at h
      · cases h; exact .others .cancelled
      · cases h
    · cases h
  | signal u w =>
    simp only [step] at h
    split at h
    · rename_i hp
      cases h
      exact .others (.signal hp.2.2)
    · cases h
  | wake u =>
    simp only [step] at h
    split at h
    · obtain ⟨t',ht,rfl⟩ := Option.map_eq_some_iff.mp h
      exact .wakeHeld ‹_› (wakes_of_wake ht)
    · obtain ⟨t',ht,rfl⟩ := Option.map_eq_some_iff.mp h
      exact .wakeSignalled ‹_› (wakes_of_wake ht)
    · cases h
  | poll ts =>
    simp only [step] at h
    split at h
    · cases h; exact .others .poll
    · cases h
  | collect =>
    simp only [step] at h
    split at h
    · cases h; exact .others (.collect ‹_›)
    · cases h
  | wakeDue w =>
    simp only [step] at h
    split at h
    · split at h
      · rename_i hp
        obtain ⟨t',ht,rfl⟩ := Option.map_eq_some_iff.mp h
        exact .wakeDue ‹_› hp.1 (wakes_of_wake ht)
      · cases h
    · cases h
  | pollAgain =>
    simp only [step] at h
    split at h
    · cases h; exact .others .pollAgain
    · cases h
  | otherEnlists => cases h; exact .others .otherEnlists
  | tick => cases h; exact .others .tick

end Ens.Tasks.Waits
