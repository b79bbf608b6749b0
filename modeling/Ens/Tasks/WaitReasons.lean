import Ens.Tasks.WaitSteps

/-! # Why a waiter is woken

Whoever wakes a waiter does so for what the wait was for: the poller returned its token, a timer of
its deadline is due, another thread took it off the monitor's list, or a cancel set a flag the task
sees. What is known of the wait of a waiter no step takes back.
-/
set_option linter.all false
namespace Ens.Tasks.Waits
open Park
variable {W U : Type} [DecidableEq W] [DecidableEq U]
variable {own : List ℕ} {s t : State W U} {a : Action W U} {x : Option U} {w : ℕ}

/-- The poller returned the token of the wait. -/
def Fired (s : State W U) (w : ℕ) : Prop := ∃ t, (s.waits w).token = some t ∧ t ∈ s.fired

/-- The deadline a timer was set for has passed. -/
def Passed (s : State W U) (w : ℕ) : Prop := ∃ d, (d,w) ∈ s.timed ∧ d ≤ s.clock

/-- A flag was set by which the task sees itself cancelled in the wait. -/
def Stopped (s : State W U) (w : ℕ) : Prop := ∃ f ∈ (s.waits w).flags, s.asked f

/-- A reason to wake the waiter. -/
def Reason (s : State W U) (w : ℕ) : Prop := Fired s w ∨ Passed s w ∨ s.signalled w ∨ Stopped s w

def Call.isMonitor : Call → Bool
  | .monitor _ _ => true
  | _ => false

structure Keeps (s t : State W U) : Prop where
  issued : s.issued ≤ t.issued
  call : ∀ w < s.issued, (t.waits w).call = (s.waits w).call
  token : ∀ w < s.issued, (t.waits w).token = (s.waits w).token
  flags : ∀ w < s.issued, (t.waits w).flags = (s.waits w).flags
  ready : ∀ w < s.issued, (s.waits w).ready → (t.waits w).ready
  asked : ∀ f, s.asked f → t.asked f
  fired : s.fired ⊆ t.fired
  timed : s.timed ⊆ t.timed
  clock : s.clock ≤ t.clock
  signalled : ∀ w, s.signalled w → t.signalled w

omit [DecidableEq W] [DecidableEq U] in
theorem Keeps.refl (s : State W U) : Keeps s s := by constructor <;> simp

omit [DecidableEq W] [DecidableEq U] in
theorem Keeps.firedOr (h : Keeps s t) (hw : w < s.issued) (hf : Fired s w ∨ Passed s w) : Fired t w ∨ Passed t w := by
  rcases hf with ⟨k,hk,hf⟩ | ⟨d,hd,hc⟩
  · exact .inl ⟨k,(h.token w hw).trans hk,h.fired hf⟩
  · exact .inr ⟨d,h.timed hd,Int.le_trans hc h.clock⟩

omit [DecidableEq W] [DecidableEq U] in
theorem Keeps.stopped (h : Keeps s t) (hw : w < s.issued) (hf : Stopped s w) : Stopped t w := by
  obtain ⟨f,hf,ha⟩ := hf
  exact ⟨f,by rwa [h.flags w hw],h.asked f ha⟩

omit [DecidableEq W] [DecidableEq U] in
theorem Keeps.reason (h : Keeps s t) (hw : w < s.issued) (hr : Reason s w) : Reason t w := by
  rcases hr with hf | hp | hm | hs
  · exact (h.firedOr hw (.inl hf)).imp_right .inl
  · exact (h.firedOr hw (.inr hp)).imp_right .inl
  · exact .inr (.inr (.inl (h.signalled w hm)))
  · exact .inr (.inr (.inr (h.stopped hw hs)))

omit [DecidableEq W] [DecidableEq U] in
theorem issue_keeps {c : Call} {k : Option ℕ} : Keeps s (s.issue own c k) := by
  have hne {v : ℕ} (hv : v < s.issued) : (s.issue own c k).waits v = s.waits v := Function.update_of_ne (Nat.ne_of_lt hv) ..
  refine ⟨Nat.le_succ _,fun v hv => ?_,fun v hv => ?_,fun v hv => ?_,fun v hv h => ?_,fun _ h => h,fun _ h => h,
    fun _ h => h,Int.le_refl _,fun _ h => h⟩ <;> rw [hne hv]
  exact h

omit [DecidableEq W] [DecidableEq U] in
theorem moves_keeps (h : Moves own s t) : Keeps s t := by
  cases h with
  | turns _ _ | bodies _ | drops _ | discharges _ | blocks _ | lists _ _ _ | leaves _ _ _ | unblocks _ _ =>
    exact { Keeps.refl s with }
  | issues _ _ _ _ _ _ => exact { issue_keeps (s := s) with }
  | issuesUnblocked _ _ => exact { issue_keeps (s := s) with }
  | enlists _ => exact { issue_keeps (s := s) with }
  | schedules _ => exact { Keeps.refl s with timed := List.subset_cons_self .. }

omit [DecidableEq W] [DecidableEq U] in
theorem givesUp_keeps (h : GivesUp s a w t) : Keeps s t := by
  cases h with
  | skips _ _ | fails _ _ _ => exact { Keeps.refl s with }
  | isReady _ =>
    refine { Keeps.refl s with call := fun v _ => ?_, token := fun v _ => ?_, flags := fun v _ => ?_, ready := fun v _ hr => ?_ }
    all_goals by_cases hv : v = w <;> simp [hv]
    exact hr

omit [DecidableEq W] in
theorem others_keeps (h : Others own s t) : Keeps s t := by
  cases h with
  | captures _ _ _ | cancelled | collect _ | pollAgain | otherEnlists | stays => exact { Keeps.refl s with }
  | @cancel u f =>
    refine { Keeps.refl s with asked := fun g hg => ?_ }
    by_cases hgf : g = f <;> simp [hgf,hg]
  | @signal u w _ =>
    refine { Keeps.refl s with signalled := fun v hv => ?_ }
    by_cases hvw : v = w <;> simp [hvw,hv]
  | poll => exact { Keeps.refl s with fired := List.subset_append_right .. }
  | tick => exact { Keeps.refl s with clock := Int.le.intro 1 rfl }

theorem wakes_keeps (h : Wakes s x w t) : Keeps s t := by
  cases h with
  | late _ | wakes _ _ => exact { Keeps.refl s with }

theorem steps_keeps (h : Steps own s a t) : Keeps s t := by
  cases h with
  | moves h => exact moves_keeps h
  | givesUp h => exact givesUp_keeps h
  | others h => exact others_keeps h
  | park _ _ | finish _ _ | starts _ _ | resumes _ _ | parking _ _ => exact { Keeps.refl s with }
  | wakeHeld _ h | wakeSignalled _ h | wakeDue _ _ h => exact { wakes_keeps h with }

/-! ### Whom a step adds -/

/-- Where a waiter comes to stand in a step, there is a reason to wake it by. -/
structure Adds (s t : State W U) : Prop where
  woken : ∀ w, t.woken w → s.woken w ∨ (w < t.issued ∧ Reason t w) := by exact fun _ h => .inl h
  watched : ∀ k w, t.watched k = some w → s.watched k = some w ∨ (w < t.issued ∧ (t.waits w).token = some k) := by
    exact fun _ _ h => .inl h
  timers : ∀ x ∈ t.timers, x ∈ s.timers ∨ x ∈ t.timed := by exact fun _ h => .inl h
  timed : ∀ d w, (d,w) ∈ t.timed → (d,w) ∈ s.timed ∨
    (w < t.issued ∧ ∀ l, (t.waits w).call = .events l → d = l ∧ 0 ≤ d) := by exact fun _ _ h => .inl h
  polled : ∀ ks, t.events = .polled ks → s.events = .polled ks ∨ ks ⊆ t.fired := by exact fun _ h => .inl h
  due : ∀ ws, t.events = .wakes ws → ∀ w ∈ ws, (∃ vs, s.events = .wakes vs ∧ w ∈ vs) ∨
    (w < t.issued ∧ (Fired t w ∨ Passed t w)) := by exact fun ws h _ hw => .inl ⟨ws,h,hw⟩
  cancels : ∀ u f, t.wakers u = .cancels f → s.wakers u = .cancels f ∨ t.asked f := by exact fun _ _ h => .inl h
  holds : ∀ u f w, t.wakers u = .holds f w → s.wakers u = .holds f w ∨
    (w < t.issued ∧ t.asked f ∧ f ∈ (t.waits w).flags) := by exact fun _ _ _ h => .inl h
  signals : ∀ u w, t.wakers u = .signals w → s.wakers u = .signals w ∨ (w < t.issued ∧ t.signalled w) := by
    exact fun _ _ h => .inl h
  listed : ∀ w, t.listed w → s.listed w ∨ (w < t.issued ∧ (t.waits w).call.isMonitor) := by exact fun _ h => .inl h
  signalled : ∀ w, t.signalled w → s.signalled w ∨ (w < t.issued ∧ (t.waits w).call.isMonitor) := by
    exact fun _ h => .inl h

omit [DecidableEq W] in
theorem setWaker_eq {u v : U} {y z : Waker} (h : (s.setWaker u y).wakers v = z) : s.wakers v = z ∨ y = z := by
  by_cases hv : v = u
  · subst hv; exact .inr (by simpa [State.setWaker] using h)
  · exact .inl (by simpa [State.setWaker,hv] using h)

omit [DecidableEq W] in
theorem setWaker_adds {u : U} {y : Waker} (hc : ∀ f, y = .cancels f → s.asked f)
    (hh : ∀ f w, y = .holds f w → w < s.issued ∧ s.asked f ∧ f ∈ (s.waits w).flags)
    (hs : ∀ w, y = .signals w → w < s.issued ∧ s.signalled w) : Adds s (s.setWaker u y) where
  cancels _ f hv := (setWaker_eq hv).imp_right (hc f)
  holds _ f w hv := (setWaker_eq hv).imp_right (hh f w)
  signals _ w hv := (setWaker_eq hv).imp_right (hs w)

omit [DecidableEq W] [DecidableEq U] in
theorem park_adds {y : Phase} {p : Park.State W (Option U)} : Adds s { s with phase := y, park := p } where

omit [DecidableEq W] [DecidableEq U] in
theorem due_adds {ws : List ℕ} (hws : s.events = .wakes ws) : Adds s { s with events := .wakes (ws.erase w) } where
  polled := nofun
  due vs hvs v hv := by
    cases hvs
    exact .inl ⟨ws,hws,List.mem_of_mem_erase hv⟩

theorem waiter_of_blocked {y : Phase} (h : y.blocked = some w) : y.waiter = some w := by
  cases y with
  | consults c | reads c _ => cases c <;> first | exact h | cases h
  | lists v | schedules v _ | parks v | parked v | resumes v | unblocks v _ => exact h
  | _ => cases h

omit [DecidableEq W] [DecidableEq U] in
theorem discharge_watched {v k : ℕ}
    (h : ((s.waits v).token.elim s.watched fun c => Function.update s.watched c none) k = some w) :
    s.watched k = some w := by
  cases hv : (s.waits v).token with
  | none => simpa [hv] using h
  | some c =>
    rw [hv] at h
    by_cases hkc : k = c
    · simp [hkc] at h
    · simpa [hkc] using h

/-- The waiters collected are watched under tokens the poller returned. -/
theorem collect_mem {ks : List ℕ} {m : ℕ → Option ℕ} (hw : w ∈ (collect ks m).1) : ∃ k ∈ ks, m k = some w := by
  induction ks generalizing m with
  | nil => simp [collect] at hw
  | cons k ks ih =>
    rw [collect] at hw
    cases hk : m k with
    | none =>
      rw [hk] at hw
      obtain ⟨c,hc,hm⟩ := ih hw
      exact ⟨c,List.mem_cons_of_mem _ hc,hm⟩
    | some v =>
      rw [hk] at hw
      rcases List.mem_cons.mp hw with rfl | hw
      · exact ⟨k,List.mem_cons_self ..,hk⟩
      · obtain ⟨c,hc,hm⟩ := ih hw
        by_cases hck : c = k
        · simp [hck] at hm
        · exact ⟨c,List.mem_cons_of_mem _ hc,by simpa [hck] using hm⟩

theorem collect_watched {ks : List ℕ} {m : ℕ → Option ℕ} {k : ℕ} (h : (collect ks m).2 k = some w) : m k = some w := by
  induction ks generalizing m with
  | nil => exact h
  | cons c ks ih =>
    rw [collect] at h
    cases hc : m c with
    | none => rw [hc] at h; exact ih h
    | some v =>
      rw [hc] at h
      have := ih h
      by_cases hkc : k = c
      · simp [hkc] at this
      · simpa [hkc] using this

structure Suits (own : List ℕ) (s : State W U) (y : Phase) : Prop where
  waiter : ∀ w, y.waiter = some w → w < s.issued ∧ (s.waits w).flags = s.flags own
  reads : ∀ c rest, y = .reads c rest → rest ⊆ s.flags own
  watches : ∀ w n, y = .watches w n → ∃ d, (s.waits w).call = .events d
  drops : ∀ w k c, y = .drops w k c → ∃ d, (s.waits w).call = .events d
  blocks : ∀ w, y = .blocks w → (s.waits w).call.blocks
  schedules : ∀ w d, y = .schedules w d → ∀ l, (s.waits w).call = .events l → d = l ∧ 0 ≤ d

structure Fits (own : List ℕ) (s : State W U) : Prop where
  suits : Suits own s s.phase
  blocked : ∀ w, s.blockedOn = some w → s.phase.blocked = some w ∧ (s.waits w).call.blocks

omit [DecidableEq W] [DecidableEq U] in
theorem givesUp_adds (h : GivesUp s a w t) : Adds s t := by
  cases h <;> exact {}

omit [DecidableEq W] [DecidableEq U] in
theorem moves_adds (hf : Fits own s) (h : Moves own s t) : Adds s t := by
  cases h with
  | turns _ _ | bodies _ | issues _ _ _ _ _ _ | issuesUnblocked _ _ | blocks _ | unblocks _ _ => exact {}
  | drops _ => exact { watched := fun _ _ hw => .inl (discharge_watched hw) }
  | discharges _ => exact { watched := fun _ _ hw => .inl (discharge_watched hw) }
  | @enlists n d c hp =>
    refine { watched := fun k w hw => ?_ }
    by_cases hkc : k = c
    · subst hkc
      obtain rfl : s.issued = w := by simpa using hw
      exact .inr ⟨Nat.lt_succ_self _,by simp [State.issue,State.goto]⟩
    · exact .inl (by simpa [hkc] using hw)
  | @lists w y b m hp hc hy =>
    refine { listed := fun v hv => ?_ }
    by_cases hvw : v = w
    · subst hvw
      exact .inr ⟨(hf.suits.waiter v (by rw [hp]; rfl)).1,congrArg Call.isMonitor hc⟩
    · exact .inl (by simpa [hvw] using hv)
  | @schedules w d hp =>
    refine { timers := fun x hx => ?_, timed := fun e v he => ?_ }
    · rcases List.mem_cons.mp hx with rfl | hx
      · exact .inr (List.mem_cons_self ..)
      · exact .inl hx
    · rcases List.mem_cons.mp he with he | he
      · cases he
        exact .inr ⟨(hf.suits.waiter w (by rw [hp]; rfl)).1,hf.suits.schedules w d hp⟩
      · exact .inl he
  | @leaves w y b m hp hc hy =>
    refine { listed := fun v hv => .inl ?_ }
    by_cases hvw : v = w
    · simp [hvw] at hv
    · simpa [hvw] using hv

/-! ### Where the waiters are -/

/-- Where a waiter that was issued stands, there is a reason to wake it by then. -/
structure Refs (s : State W U) : Prop where
  woken : ∀ w, s.woken w → w < s.issued ∧ Reason s w
  watched : ∀ k w, s.watched k = some w → w < s.issued ∧ (s.waits w).token = some k
  timers : s.timers ⊆ s.timed
  timed : ∀ d w, (d,w) ∈ s.timed → w < s.issued ∧ ∀ l, (s.waits w).call = .events l → d = l ∧ 0 ≤ d
  polled : ∀ ks, s.events = .polled ks → ks ⊆ s.fired
  due : ∀ ws, s.events = .wakes ws → ∀ w ∈ ws, w < s.issued ∧ (Fired s w ∨ Passed s w)
  cancels : ∀ u f, s.wakers u = .cancels f → s.asked f
  holds : ∀ u f w, s.wakers u = .holds f w → w < s.issued ∧ s.asked f ∧ f ∈ (s.waits w).flags
  signals : ∀ u w, s.wakers u = .signals w → w < s.issued ∧ s.signalled w
  listed : ∀ w, s.listed w → w < s.issued ∧ (s.waits w).call.isMonitor
  signalled : ∀ w, s.signalled w → w < s.issued ∧ (s.waits w).call.isMonitor

omit [DecidableEq W] in
theorem others_adds (hf : Fits own s) (hr : Refs s) (h : Others own s t) : Adds s t := by
  cases h with
  | stays | otherEnlists | tick => exact {}
  | pollAgain => exact { polled := nofun, due := nofun }
  | @captures u f w hu hw hflags =>
    refine setWaker_adds nofun (fun g y he => ?_) nofun
    cases he
    obtain ⟨hlt,hflag⟩ := hf.suits.waiter w (waiter_of_blocked (hf.blocked w hw).1)
    exact ⟨hlt,hr.cancels u f hu,hflag.symm ▸ hflags⟩
  | cancelled => exact setWaker_adds nofun nofun nofun
  | @cancel u f =>
    refine { cancels := fun v g hv => ?_, holds := fun v g y hv => ?_, signals := fun v y hv => ?_ }
    · refine (setWaker_eq hv).imp_right fun he => ?_
      cases he
      exact Function.update_self ..
    · exact (setWaker_eq hv).imp_right nofun
    · exact (setWaker_eq hv).imp_right nofun
  | @signal u w hl =>
    have hlw := hr.listed w hl
    refine { cancels := fun v g hv => ?_, holds := fun v g y hv => ?_, signals := fun v y hv => ?_,
             listed := fun v hv => .inl ?_, signalled := fun v hv => ?_ }
    · exact (setWaker_eq hv).imp_right nofun
    · exact (setWaker_eq hv).imp_right nofun
    · refine (setWaker_eq hv).imp_right fun he => ?_
      cases he
      exact ⟨hlw.1,Function.update_self ..⟩
    · by_cases hvw : v = w
      · simp [hvw] at hv
      · simpa [hvw] using hv
    · by_cases hvw : v = w
      · exact .inr (hvw ▸ hlw)
      · exact .inl (by simpa [hvw] using hv)
  | @poll ks =>
    refine { polled := fun c hc => .inr ?_, due := nofun }
    cases hc
    exact List.subset_append_left ..
  | @collect ks hp =>
    refine { watched := fun _ _ hw => .inl (collect_watched hw), timers := fun x hx => .inl (List.mem_of_mem_filter hx),
             polled := nofun, due := fun ws hws w hw => .inr ?_ }
    cases hws
    rcases List.mem_append.mp hw with hw | hw
    · obtain ⟨k,hk,hkw⟩ := collect_mem hw
      obtain ⟨hlt,htoken⟩ := hr.watched k w hkw
      exact ⟨hlt,.inl ⟨k,htoken,hr.polled ks hp hk⟩⟩
    · obtain ⟨⟨d,v⟩,hd,rfl⟩ := List.mem_map.mp hw
      obtain ⟨hd,hdue⟩ := List.mem_filter.mp hd
      have htimed := hr.timers hd
      exact ⟨(hr.timed d v htimed).1,.inr ⟨d,htimed,by simpa using hdue⟩⟩

omit [DecidableEq W] [DecidableEq U] in
theorem refs_init : Refs (init : State W U) := by constructor <;> simp [init]

omit [DecidableEq W] [DecidableEq U] in
theorem Refs.add (h : Refs s) (hk : Keeps s t) (ha : Adds s t) : Refs t where
  woken w hw := by
    refine (ha.woken w hw).elim (fun hw => ?_) id
    obtain ⟨hlt,hr⟩ := h.woken w hw
    exact ⟨Nat.lt_of_lt_of_le hlt hk.issued,hk.reason hlt hr⟩
  watched k w hw := by
    refine (ha.watched k w hw).elim (fun hw => ?_) id
    obtain ⟨hlt,ht⟩ := h.watched k w hw
    exact ⟨Nat.lt_of_lt_of_le hlt hk.issued,(hk.token w hlt).trans ht⟩
  timers x hx := (ha.timers x hx).elim (fun hx => hk.timed (h.timers hx)) id
  timed d w hd := by
    refine (ha.timed d w hd).elim (fun hd => ?_) id
    obtain ⟨hlt,hl⟩ := h.timed d w hd
    refine ⟨Nat.lt_of_lt_of_le hlt hk.issued,fun l hc => hl l ?_⟩
    rwa [hk.call w hlt] at hc
  polled ks hks := (ha.polled ks hks).elim (fun hks x hx => hk.fired (h.polled ks hks hx)) id
  due ws hws w hw := by
    refine (ha.due ws hws w hw).elim (fun ⟨vs,hvs,hw⟩ => ?_) id
    obtain ⟨hlt,hf⟩ := h.due vs hvs w hw
    exact ⟨Nat.lt_of_lt_of_le hlt hk.issued,hk.firedOr hlt hf⟩
  cancels u f hu := (ha.cancels u f hu).elim (fun hu => hk.asked f (h.cancels u f hu)) id
  holds u f w hu := by
    refine (ha.holds u f w hu).elim (fun hu => ?_) id
    obtain ⟨hlt,ha,hf⟩ := h.holds u f w hu
    exact ⟨Nat.lt_of_lt_of_le hlt hk.issued,hk.asked f ha,by rwa [hk.flags w hlt]⟩
  signals u w hu := by
    refine (ha.signals u w hu).elim (fun hu => ?_) id
    obtain ⟨hlt,hs⟩ := h.signals u w hu
    exact ⟨Nat.lt_of_lt_of_le hlt hk.issued,hk.signalled w hs⟩
  listed w hw := by
    refine (ha.listed w hw).elim (fun hw => ?_) id
    obtain ⟨hlt,hm⟩ := h.listed w hw
    exact ⟨Nat.lt_of_lt_of_le hlt hk.issued,by rwa [hk.call w hlt]⟩
  signalled w hw := by
    refine (ha.signalled w hw).elim (fun hw => ?_) id
    obtain ⟨hlt,hm⟩ := h.signalled w hw
    exact ⟨Nat.lt_of_lt_of_le hlt hk.issued,by rwa [hk.call w hlt]⟩

theorem wakes_refs (hr : Refs s) (hlt : w < s.issued) (hreason : Reason s w) (h : Wakes s x w t) : Refs t := by
  cases h with
  | late _ => exact hr
  | wakes _ _ =>
    refine hr.add { Keeps.refl s with } { woken := fun v hv => ?_ }
    by_cases hvw : v = w
    · subst hvw; exact .inr ⟨hlt,hreason⟩
    · exact .inl (by simpa [hvw] using hv)

theorem steps_refs (hf : Fits own s) (hr : Refs s) (h : Steps own s a t) : Refs t := by
  cases h with
  | moves h => exact hr.add (moves_keeps h) (moves_adds hf h)
  | givesUp h => exact hr.add (givesUp_keeps h) (givesUp_adds h)
  | others h => exact hr.add (others_keeps h) (others_adds hf hr h)
  | park _ _ | finish _ _ | starts _ _ | resumes _ _ | parking _ _ => exact hr.add { Keeps.refl s with } park_adds
  | @wakeHeld u f w t hu h =>
    obtain ⟨hlt,ha,hflag⟩ := hr.holds u f w hu
    have ht := wakes_refs hr hlt (.inr (.inr (.inr ⟨f,hflag,ha⟩))) h
    refine ht.add { Keeps.refl t with } (setWaker_adds (fun g he => ?_) nofun nofun)
    cases he
    exact (wakes_keeps h).asked f ha
  | @wakeSignalled u w t hu h =>
    obtain ⟨hlt,hs⟩ := hr.signals u w hu
    have ht := wakes_refs hr hlt (.inr (.inr (.inl hs))) h
    exact ht.add { Keeps.refl t with } (setWaker_adds nofun nofun nofun)
  | @wakeDue w ws t hws hw h =>
    obtain ⟨hlt,hdue⟩ := hr.due ws hws w hw
    have ht := wakes_refs hr hlt (hdue.imp_right .inl) h
    exact ht.add { Keeps.refl t with } (due_adds (by cases h <;> exact hws))

/-! ### The phase -/

omit [DecidableEq W] [DecidableEq U] in
theorem suits_none {y : Phase} (hw : y.waiter = none) (hr : ∀ c rest, y = .reads c rest → rest ⊆ s.flags own) :
    Suits own s y := by
  refine ⟨fun w hy => ?_,hr,fun w n hy => ?_,fun w k c hy => ?_,fun w hy => ?_,fun w d hy => ?_⟩
  · rw [hw] at hy; cases hy
  all_goals rw [hy] at hw; cases hw

omit [DecidableEq W] [DecidableEq U] in
theorem fits_init : Fits own (init : State W U) := ⟨suits_none rfl nofun,nofun⟩

omit [DecidableEq W] [DecidableEq U] in
theorem Suits.keep {y : Phase} (h : Suits own s y) (hk : Keeps s t) (hb : t.bodies = s.bodies) : Suits own t y := by
  have hcall {w : ℕ} (hy : y.waiter = some w) : (t.waits w).call = (s.waits w).call := hk.call w (h.waiter w hy).1
  refine ⟨fun w hw => ?_,fun c rest hy => ?_,fun w n hy => ?_,fun w k c hy => ?_,fun w hy => ?_,fun w d hy => ?_⟩
  · obtain ⟨hlt,hf⟩ := h.waiter w hw
    exact ⟨Nat.lt_of_lt_of_le hlt hk.issued,by rw [hk.flags w hlt,hf,State.flags,State.flags,hb]⟩
  · rw [State.flags,hb]
    exact h.reads c rest hy
  · rw [hcall (by rw [hy]; rfl)]; exact h.watches w n hy
  · rw [hcall (by rw [hy]; rfl)]; exact h.drops w k c hy
  · rw [hcall (by rw [hy]; rfl)]; exact h.blocks w hy
  · rw [hcall (by rw [hy]; rfl)]; exact h.schedules w d hy

omit [DecidableEq W] [DecidableEq U] in
/-- A phase of the same wait that is none of those that say more. -/
theorem Suits.same {x y : Phase} (h : Suits own s x) (hw : y.waiter = x.waiter)
    (hr : ∀ c rest, y = .reads c rest → rest ⊆ s.flags own) (hx : ∀ w n, y ≠ .watches w n) (hd : ∀ w k c, y ≠ .drops w k c)
    (hb : ∀ w, y ≠ .blocks w) (hs : ∀ w d, y ≠ .schedules w d) : Suits own s y :=
  ⟨fun w hy => h.waiter w (hw ▸ hy),hr,fun w n hy => absurd hy (hx w n),fun w k c hy => absurd hy (hd w k c),
    fun w hy => absurd hy (hb w),fun w d hy => absurd hy (hs w d)⟩

omit [DecidableEq W] [DecidableEq U] in
theorem turns_blocked {x y : Phase} (h : Turns own s x y) : y.blocked = x.blocked := by
  cases h with
  | @consults c => cases c <;> rfl
  | @reads c _ _ _ => cases c <;> rfl
  | _ => rfl

omit [DecidableEq W] [DecidableEq U] in
theorem turns_suits {x y : Phase} (h : Suits own s x) (ht : Turns own s x y) : Suits own s y := by
  cases ht with
  | answersNone _ | awaits | sleeps | loops | slept | stopsFirst _ | stopsLoop _ | enlists | again | returns =>
    exact suits_none rfl nofun
  | stopsLast _ _ | parks | lists | arrived _ | waited | comesBack => exact h.same rfl nofun nofun nofun nofun nofun
  | @consults c =>
    refine h.same (by cases c <;> rfl) (fun e rest he => ?_) nofun nofun nofun nofun
    cases he
    exact List.Subset.refl _
  | @reads c f rest _ =>
    refine h.same (by cases c <;> rfl) (fun e rest he => ?_) nofun nofun nofun nofun
    cases he
    exact fun x hx => h.reads c _ rfl (List.mem_cons_of_mem _ hx)
  | @schedules w d hc hd =>
    refine ⟨h.waiter,nofun,nofun,nofun,nofun,fun v e he l hl => ?_⟩
    cases he
    rcases hc with hc | hc <;> cases hc.symm.trans hl
    exact ⟨rfl,hd⟩
  | @watches w n m => exact ⟨h.waiter,nofun,fun v e he => by cases he; exact h.watches w n rfl,nofun,nofun,nofun⟩
  | @blocks w n =>
    refine ⟨h.waiter,nofun,nofun,nofun,fun v he => ?_,nofun⟩
    cases he
    obtain ⟨d,hd⟩ := h.watches w n rfl
    rw [hd]
    rfl

omit [DecidableEq W] [DecidableEq U] in
/-- The task is blocked on nothing in a phase that no wait blocks. -/
theorem Fits.unblocked (h : Fits own s) (hp : s.phase.blocked = none) : s.blockedOn = none := by
  cases hb : s.blockedOn with
  | none => rfl
  | some w =>
    have := (h.blocked w hb).1
    rw [hp] at this
    cases this

omit [DecidableEq W] [DecidableEq U] in
theorem Fits.keep (h : Fits own s) (hk : Keeps s t) (hp : t.phase = s.phase) (hb : t.bodies = s.bodies)
    (hon : t.blockedOn = s.blockedOn) : Fits own t := by
  refine ⟨hp ▸ h.suits.keep hk hb,fun w hw => ?_⟩
  obtain ⟨hpw,hc⟩ := h.blocked w (hon ▸ hw)
  exact ⟨hp ▸ hpw,by rwa [hk.call w (h.suits.waiter w (waiter_of_blocked hpw)).1]⟩

omit [DecidableEq W] [DecidableEq U] in
theorem issue_suits {c : Call} {k : Option ℕ} {y : Phase} (hw : y.waiter = some s.issued) (hr : ∀ e rest, y ≠ .reads e rest)
    (hwatch : ∀ w n, y = .watches w n → ∃ d, c = .events d) (hd : ∀ w k c, y ≠ .drops w k c)
    (hb : ∀ w, y = .blocks w → c.blocks) (hs : ∀ w d, y ≠ .schedules w d) : Suits own (s.issue own c k) y := by
  have hwait : (s.issue own c k).waits s.issued = { call := c, token := k, flags := s.flags own } := Function.update_self ..
  have heq {w : ℕ} (hy : y.waiter = some w) : w = s.issued := Option.some.inj (hy.symm.trans hw)
  refine ⟨fun w hy => ?_,fun e rest he => absurd he (hr e rest),fun w n hy => ?_,fun w k c hy => absurd hy (hd w k c),
    fun w hy => ?_,fun w d hy => absurd hy (hs w d)⟩
  · rw [heq hy,hwait]
    exact ⟨Nat.lt_succ_self _,rfl⟩
  · rw [heq (w := w) (by rw [hy]; rfl),hwait]
    exact hwatch w n hy
  · rw [heq (w := w) (by rw [hy]; rfl),hwait]
    exact hb w hy

omit [DecidableEq W] [DecidableEq U] in
theorem moves_fits (h : Fits own s) (hm : Moves own s t) : Fits own t := by
  have hk := moves_keeps hm
  cases hm with
  | @turns x y hp ht =>
    subst hp
    refine ⟨(turns_suits h.suits ht).keep hk rfl,fun w hw => ?_⟩
    rw [show (s.goto y).phase = y from rfl,turns_blocked ht]
    exact h.blocked w hw
  | bodies hp => exact ⟨suits_none (by rw [show _ = Phase.runs from hp]; rfl) (fun c rest he => by cases he.symm.trans hp),h.blocked⟩
  | @issues x c hp hblocked hlive hon hc hne =>
    refine ⟨(issue_suits (c := c) (k := none) (y := .blocks s.issued) rfl nofun nofun nofun (fun _ _ => hc) nofun).keep
      { Keeps.refl _ with } rfl,?_⟩
    intro w hw
    cases (h.unblocked (hp ▸ hblocked)).symm.trans hw
  | @issuesUnblocked c hp hne =>
    refine ⟨(issue_suits (c := c) (k := none) (y := .lists s.issued) rfl nofun nofun nofun nofun nofun).keep
      { Keeps.refl _ with } rfl,?_⟩
    intro w hw
    cases (h.unblocked (by rw [hp]; rfl)).symm.trans hw
  | @enlists n d k hp =>
    refine ⟨(issue_suits (c := .events d) (k := some k) (y := .watches s.issued n) rfl nofun (fun _ _ _ => ⟨d,rfl⟩) nofun nofun
      nofun).keep { Keeps.refl _ with } rfl,?_⟩
    intro w hw
    cases (h.unblocked (by rw [hp]; rfl)).symm.trans hw
  | @drops w k c hp =>
    refine ⟨(h.suits.same (y := .answers (some w) (.event k c)) (by rw [hp]; rfl) nofun nofun nofun nofun nofun).keep hk rfl,?_⟩
    intro v hv
    cases (h.unblocked (by rw [hp]; rfl)).symm.trans hv
  | @discharges w hp =>
    refine ⟨(h.suits.same (y := .consults (.last w)) (by rw [hp]; rfl) nofun nofun nofun nofun nofun).keep hk rfl,?_⟩
    intro v hv
    cases (h.unblocked (by rw [hp]; rfl)).symm.trans hv
  | @blocks w hp =>
    refine ⟨(h.suits.same (y := .consults (.skip w)) (by rw [hp]; rfl) nofun nofun nofun nofun nofun).keep hk rfl,?_⟩
    intro v hv
    cases hv
    exact ⟨rfl,h.suits.blocks w hp⟩
  | @lists w y b m hp hc hy =>
    have hw := h.suits.waiter w (by rw [hp]; rfl)
    have hsuits : Suits own s y := by
      rcases hy with rfl | ⟨d,rfl⟩
      · exact h.suits.same (by rw [hp]; rfl) nofun nofun nofun nofun nofun
      · refine ⟨fun v hv => by cases hv; exact hw,nofun,nofun,nofun,nofun,fun v e he l hl => ?_⟩
        cases he
        cases hc.symm.trans hl
    refine ⟨hsuits.keep hk rfl,fun v hv => ?_⟩
    obtain ⟨hpv,hcv⟩ := h.blocked v hv
    refine ⟨?_,hcv⟩
    rw [hp] at hpv
    rcases hy with rfl | ⟨d,rfl⟩ <;> exact hpv
  | @schedules w d hp =>
    refine ⟨(h.suits.same (y := .parks w) (by rw [hp]; rfl) nofun nofun nofun nofun nofun).keep hk rfl,fun v hv => ?_⟩
    have := h.blocked v hv
    rw [hp] at this
    exact this
  | @leaves w y b m hp hc hy =>
    have hsuits : Suits own s y := by
      rw [hy]
      refine h.suits.same ?_ ?_ ?_ ?_ ?_ ?_
      · rw [hp]; cases b <;> rfl
      all_goals cases b <;> nofun
    refine ⟨hsuits.keep hk rfl,fun v hv => ?_⟩
    obtain ⟨hpv,hcv⟩ := h.blocked v hv
    refine ⟨?_,hcv⟩
    rw [hp] at hpv
    cases hpv
    rw [hc] at hcv
    rw [show b = true from hcv] at hy
    rw [show _ = y from rfl,hy]
    rfl
  | @unblocks w b y hp hy =>
    refine ⟨?_,nofun⟩
    refine (h.suits.same (y := y) ?_ ?_ ?_ ?_ ?_ ?_).keep hk rfl
    · rw [hp]; rcases hy with rfl | rfl | rfl <;> rfl
    all_goals rcases hy with rfl | rfl | rfl <;> nofun

omit [DecidableEq W] [DecidableEq U] in
theorem watches_drops {n : ℕ} {k : EventEnd} {c : ℤ} (h : Suits own s (.watches w n)) : Suits own s (.drops w k c) := by
  refine ⟨h.waiter,nofun,nofun,fun v k e he => ?_,nofun,nofun⟩
  cases he
  exact h.watches w n rfl

omit [DecidableEq W] [DecidableEq U] in
theorem givesUp_fits (h : Fits own s) (hm : GivesUp s a w t) : Fits own t := by
  have hk := givesUp_keeps hm
  cases hm with
  | @skips w f rest hp hf =>
    refine ⟨(h.suits.same (y := .unblocks w false) (by rw [hp]; rfl) nofun nofun nofun nofun nofun).keep hk rfl,fun v hv => ?_⟩
    have := h.blocked v hv
    rw [hp] at this
    exact this
  | @isReady w n c hp =>
    refine ⟨(watches_drops (hp ▸ h.suits)).keep hk rfl,fun v hv => ?_⟩
    cases (h.unblocked (by rw [hp]; rfl)).symm.trans hv
  | @fails w n x c c' k hp hx hk' =>
    refine ⟨(watches_drops (hp ▸ h.suits)).keep hk rfl,fun v hv => ?_⟩
    cases (h.unblocked (by rw [hp]; rfl)).symm.trans hv

theorem steps_fits (h : Fits own s) (hs : Steps own s a t) : Fits own t := by
  cases hs with
  | moves hm => exact moves_fits h hm
  | givesUp hm => exact givesUp_fits h hm
  | others ho => exact h.keep (others_keeps ho) (by cases ho <;> rfl) (by cases ho <;> rfl) (by cases ho <;> rfl)
  | @park v w p hp _ =>
    refine ⟨(h.suits.same (y := .parked w) (by rw [hp]; rfl) nofun nofun nofun nofun nofun).keep { Keeps.refl s with } rfl,?_⟩
    intro v hv
    have := h.blocked v hv
    rw [hp] at this
    exact this
  | @resumes v w p hp _ =>
    refine ⟨(h.suits.same (y := .resumes w) (by rw [hp]; rfl) nofun nofun nofun nofun nofun).keep { Keeps.refl s with } rfl,?_⟩
    intro v hv
    have := h.blocked v hv
    rw [hp] at this
    exact this
  | finish hp _ | starts hp _ =>
    refine ⟨suits_none rfl nofun,fun v hv => ?_⟩
    cases (h.unblocked (by rw [hp]; rfl)).symm.trans hv
  | parking _ _ => exact h.keep { Keeps.refl s with } rfl rfl rfl
  | wakeHeld _ hw | wakeSignalled _ hw | wakeDue _ _ hw =>
    exact h.keep { wakes_keeps hw with } (by cases hw <;> rfl) (by cases hw <;> rfl) (by cases hw <;> rfl)

end Ens.Tasks.Waits
