import Ens.Logic.Token
import Ens.Tasks.SchedulerSteps
import Mathlib.Data.List.Nodup

/-! # What holds of the pool in every state

One thread at most is counted as searching. A worker that has registered as idle is on the idle
list, taken off it by a thread about to wake it, or woken, and in one of these only.
-/
set_option linter.all false
namespace Ens.Tasks.Scheduler
open Tokens
variable {n : ℕ} {U : Type} [DecidableEq U]
variable {s t : State n U} {a : Action n U} {w v : Fin (n + 1)} {p q : Fin (n + 1)} {x : At n} {c d : Thread n U}
variable {y : Option (Waking n)}

/-! ### Where threads are in a `wakeIdle` -/

theorem waking_goto (s : State n U) (w : Fin (n + 1)) (x : At n) (c : Thread n U) :
    (s.goto w x).waking c = if c = .inl w then x.waking else s.waking c := by
  rcases c with v | u
  · by_cases hv : v = w
    · simp [State.waking,State.goto,hv]
    · simp [State.waking,State.goto,hv]
  · simp [State.waking,State.goto]

theorem waking_wake (s : State n U) (c : Thread n U) (y : Option (Waking n)) (d : Thread n U) :
    (s.wake c y).waking d = if d = c then y else s.waking d := by
  rcases c with w | u
  · cases y <;> exact waking_goto s w _ d
  · rcases d with v | u'
    · simp [State.waking,State.wake]
    · by_cases hu : u' = u
      · simp [State.waking,State.wake,hu]
      · simp [State.waking,State.wake,hu]

@[simp] theorem wake_searching : (s.wake c y).searching = s.searching := by cases c <;> rfl

@[simp] theorem wake_idle : (s.wake c y).idle = s.idle := by cases c <;> rfl

@[simp] theorem wake_woken : (s.wake c y).woken = s.woken := by cases c <;> rfl

@[simp] theorem wake_flag : (s.wake c y).flag = s.flag := by cases c <;> rfl

@[simp] theorem wake_global : (s.wake c y).global = s.global := by cases c <;> rfl

@[simp] theorem wake_queue : (s.wake c y).queue = s.queue := by cases c <;> rfl

@[simp] theorem wake_owner : (s.wake c y).owner = s.owner := by cases c <;> rfl

@[simp] theorem wake_processor : (s.wake c y).processor = s.processor := by cases c <;> rfl

/-! ### One searcher -/

/-- What may be counted as searching: a worker that says so, one about to count itself out, or a
thread in a `wakeIdle`. -/
inductive Searcher (n : ℕ) (U : Type)
  | flag (w : Fin (n + 1))
  | ends (w : Fin (n + 1))
  | waking (c : Thread n U)

def Counted (s : State n U) : Searcher n U → Prop
  | .flag w => s.flag w = true
  | .ends w => (s.place w).ends = true
  | .waking c => Waking.counted (s.waking c) = true

/-- A worker that goes elsewhere and is not in a counted place before or after. -/
theorem counted_goto (hx : x.ends = (s.place w).ends) (hy : Waking.counted x.waking = Waking.counted (s.place w).waking)
    (z : Searcher n U) : Counted (s.goto w x) z ↔ Counted s z := by
  cases z with
  | flag v => rfl
  | ends v =>
    by_cases hv : v = w
    · subst hv
      rw [Counted,show (s.goto v x).place v = x from Function.update_self ..,hx]
      rfl
    · rw [Counted,show (s.goto w x).place v = s.place v from Function.update_of_ne hv ..]
      rfl
  | waking c =>
    by_cases hc : c = .inl w
    · subst hc
      rw [Counted,waking_goto,if_pos rfl,hy]
      rfl
    · rw [Counted,waking_goto,if_neg hc]
      rfl

omit [DecidableEq U] in
theorem ends_of_waking {y : Waking n} (hc : s.waking c = some y) (w : Fin (n + 1)) (hw : c = .inl w) :
    (s.place w).ends = false := by
  subst hw
  have hc : (s.place w).waking = some y := hc
  cases hp : s.place w <;> rw [hp] at hc <;> first | rfl | cases hc

/-- A thread that goes on in a `wakeIdle` changes only whether it is itself counted. -/
theorem counted_wake (hc : ∀ w, c = .inl w → (s.place w).ends = false) (z : Searcher n U) :
    Counted (s.wake c y) z ↔ (Counted s z ∧ z ≠ .waking c) ∨ (z = .waking c ∧ Waking.counted y = true) := by
  cases z with
  | flag v => cases c <;> simp [Counted,State.wake,State.goto]
  | ends v =>
    rcases c with w | u
    · by_cases hv : v = w
      · subst hv
        have h1 : ((s.wake (.inl v) y).place v).ends = false := by
          have hplace (x : At n) : (s.goto v x).place v = x := Function.update_self ..
          cases y <;> exact (congrArg At.ends (hplace _)).trans rfl
        simp only [Counted,h1,hc v rfl]
        simp
      · have h1 : (s.wake (.inl w) y).place v = s.place v := Function.update_of_ne hv ..
        simp only [Counted,h1]
        simp
    · simp [Counted,State.wake]
  | waking d =>
    rw [Counted,waking_wake]
    by_cases hd : d = c
    · simp [hd]
    · simp [hd,Counted]

omit [DecidableEq U] in
theorem counted_setFlag {z : Searcher n U} : Counted (s.setFlag w true) z ↔ Counted s z ∨ z = .flag w := by
  cases z with
  | flag v =>
    by_cases hv : v = w
    · simp [Counted,State.setFlag,hv]
    · simp [Counted,State.setFlag,hv]
  | ends v => simp [Counted,State.setFlag]
  | waking c =>
    have : (s.setFlag w true).waking c = s.waking c := by cases c <;> rfl
    simp [Counted,this]

/-- At most one thread is counted as searching, and the count says whether one is. -/
def OneSearcher (s : State n U) : Prop := Token (Counted s) s.searching

omit [DecidableEq U] in
theorem oneSearcher_init : OneSearcher (init : State n U) := by
  refine token_none fun z => ?_
  cases z with
  | flag w | ends w => simp [Counted,init]
  | waking c => cases c <;> simp [Counted,init,State.waking,At.waking,Waking.counted]

def At.uncounted (x : At n) : Bool := !x.ends && !Waking.counted x.waking

theorem OneSearcher.goes {z : At n} (h : OneSearcher s) (hw : s.place w = z) (hz : z.uncounted = true) (hx : x.uncounted = true) :
    OneSearcher (s.goto w x) := by
  subst hw
  simp only [At.uncounted,Bool.and_eq_true,Bool.not_eq_true'] at hz hx
  exact h.same (counted_goto (hx.1.trans hz.1.symm) (hx.2.trans hz.2.symm))

/-- A thread that is not counted and does not come to be, or is and stays so. -/
theorem OneSearcher.wake (h : OneSearcher s) (hc : ∀ w, c = .inl w → (s.place w).ends = false)
    (hy : Waking.counted y = Waking.counted (s.waking c)) : OneSearcher (s.wake c y) := by
  rw [OneSearcher,wake_searching]
  refine h.same fun z => (counted_wake hc z).trans ?_
  by_cases hz : z = .waking c
  · subst hz
    rw [hy]
    simp [Counted]
  · simp [hz]

/-- A worker that says no more it searches and is about to count itself out. -/
theorem counted_stops (hw : (s.place w).uncounted = true) (hx : x.ends = true ∧ x.waking = none) (z : Searcher n U) :
    Counted ((s.setFlag w false).goto w x) z ↔ (Counted s z ∧ z ≠ .flag w) ∨ z = .ends w := by
  simp only [At.uncounted,Bool.and_eq_true,Bool.not_eq_true'] at hw
  cases z with
  | flag v =>
    by_cases hv : v = w
    · simp [Counted,State.setFlag,State.goto,hv]
    · simp [Counted,State.setFlag,State.goto,hv]
  | ends v =>
    by_cases hv : v = w
    · subst hv
      have hplace : ((s.setFlag v false).goto v x).place v = x := Function.update_self ..
      simp only [Counted,hplace,hx.1]
      simp
    · have hplace : ((s.setFlag w false).goto w x).place v = s.place v := Function.update_of_ne hv ..
      simp only [Counted,hplace]
      simp [hv]
  | waking c =>
    rw [Counted,waking_goto]
    by_cases hc : c = .inl w
    · subst hc
      have hcounted : Waking.counted (s.waking (.inl w)) = false := hw.2
      refine iff_of_false (by rw [if_pos rfl,hx.2]; rintro ⟨⟩) ?_
      rintro (⟨h,-⟩ | h)
      · exact Bool.false_ne_true (hcounted.symm.trans h)
      · cases h
    · have hsame : (s.setFlag w false).waking c = s.waking c := by cases c <;> rfl
      simp [Counted,hc,hsame]

theorem counted_ends (hw : (s.place w).waking = none) (hx : x.ends = false ∧ x.waking = none) (z : Searcher n U) :
    Counted (s.goto w x) z ↔ Counted s z ∧ z ≠ .ends w := by
  cases z with
  | flag v => simp [Counted,State.goto]
  | ends v =>
    by_cases hv : v = w
    · subst hv
      have hplace : (s.goto v x).place v = x := Function.update_self ..
      simp only [Counted,hplace,hx.1]
      simp
    · have hplace : (s.goto w x).place v = s.place v := Function.update_of_ne hv ..
      simp only [Counted,hplace]
      simp [hv]
  | waking c =>
    rw [Counted,waking_goto]
    by_cases hc : c = .inl w
    · subst hc
      have hnone : s.waking (.inl w) = none := hw
      simp [Counted,hx.2,hnone]
    · simp [Counted,hc]

theorem steps_oneSearcher (h : OneSearcher s) (hs : Steps s a t) : OneSearcher t := by
  cases hs with
  | silent hq =>
    refine h.goes rfl ?_ ?_
    · simp only [At.uncounted,hq.ends.2,hq.waking.1]
      rfl
    · rcases hq.waking.2 with hx | hx <;>
      · simp only [At.uncounted,hq.ends.1,hx]
        rfl
  | acquires hi hw _ => exact OneSearcher.goes (s := { s with owner := _ }) h hw rfl rfl
  | @takes w p hw => exact OneSearcher.goes (s := s.hold w _) h hw rfl rfl
  | @popOwn w p l hw _ => exact OneSearcher.goes (s := s.take p 1) h hw rfl (by cases l <;> rfl)
  | @popGlobal w l hw => exact OneSearcher.goes (s := { s with global := _ }) h hw rfl (by cases l <;> rfl)
  | @robs w v l k m m' hw => exact OneSearcher.goes (s := s.take v m) h hw rfl rfl
  | @moves w p l k hw _ => exact OneSearcher.goes (s := s.push p) h hw rfl rfl
  | registers hw | unregisters hw _ => exact OneSearcher.goes (s := { s with idle := _ }) h hw rfl rfl
  | @wakesUp w x hw _ =>
    rcases hw with ⟨hw,rfl⟩ | ⟨hw,rfl⟩ <;> exact OneSearcher.goes (s := s.setWoken w false) h hw rfl rfl
  | @searches w hw hflag h0 =>
    have h : Token (Counted s) 0 := h0 ▸ h
    have hplace : (State.setFlag { s with searching := 1 } w true).place w = .starts := hw
    refine h.enter (b := .flag w) fun z => (counted_goto ?_ ?_ z).trans counted_setFlag
    · rw [hplace]
      rfl
    · rw [hplace]
      rfl
  | @stops w x hw hflag =>
    rcases hw with ⟨hw,rfl⟩ | ⟨hw,rfl⟩ <;>
      exact Token.pass (a := .flag w) (b := .ends w) h hflag (counted_stops (by rw [hw]; rfl) ⟨rfl,rfl⟩)
  | @ends w x hw =>
    rcases hw with ⟨hw,rfl⟩ | ⟨hw,rfl | rfl⟩ <;>
      exact Token.leave (a := .ends w) h (congrArg At.ends hw) (counted_ends (congrArg At.waking hw) ⟨rfl,rfl⟩)
  | @queuesOwn w p x hw _ hx =>
    refine OneSearcher.wake (s := s.push p) h (fun v hv => ?_) ?_
    · cases hv
      rw [show (s.push p).place w = _ from hw]
      rfl
    · rw [show (s.push p).waking (.inl w) = At.waking .runs from congrArg At.waking hw]
      rcases hx with rfl | rfl <;> rfl
  | @queuesGlobal u hu =>
    refine OneSearcher.wake (s := { s with global := _ }) h nofun ?_
    rw [show State.waking { s with global := s.global + 1 } (.inr u) = none from hu]
    rfl
  | @counts c hc h0 =>
    have h : Token (Counted s) 0 := h0 ▸ h
    rw [OneSearcher,wake_searching]
    refine h.enter (b := .waking c) fun z => (counted_wake (s := { s with searching := 1 }) (ends_of_waking hc) z).trans ?_
    have hsame : Counted { s with searching := 1 } z ↔ Counted s z := by cases z <;> rfl
    rw [hsame]
    by_cases hz : z = .waking c
    · simp [hz,Waking.counted]
    · simp [hz]
  | refused hc _ => exact h.wake (ends_of_waking hc) (by rw [hc]; rfl)
  | popsIdle hc _ => exact OneSearcher.wake (s := { s with idle := _ }) h (ends_of_waking hc) (congrArg Waking.counted hc).symm
  | noIdle hc _ => exact h.wake (ends_of_waking hc) (congrArg Waking.counted hc).symm
  | @givesBack c hc =>
    rw [OneSearcher,wake_searching]
    refine Token.leave (a := .waking c) h (congrArg Waking.counted hc) fun z =>
      (counted_wake (s := { s with searching := s.searching - 1 }) (ends_of_waking hc) z).trans ?_
    have hsame : Counted { s with searching := s.searching - 1 } z ↔ Counted s z := by cases z <;> rfl
    rw [hsame]
    simp [Waking.counted]
  | @wakes c w hc =>
    rw [OneSearcher,wake_searching]
    refine Token.pass (a := .waking c) (b := .flag w) h (congrArg Waking.counted hc) fun z =>
      (counted_wake (s := (s.setFlag w true).setWoken w true) (ends_of_waking hc) z).trans ?_
    have hsame : Counted ((s.setFlag w true).setWoken w true) z ↔ Counted (s.setFlag w true) z := by cases z <;> rfl
    rw [hsame,counted_setFlag]
    by_cases hz : z = .flag w
    · simp [hz]
    · simp [hz,Waking.counted]

/-! ### Tickets -/

inductive Ticket (n : ℕ) (U : Type)
  | listed
  | popped (c : Thread n U)
  | woken

def HasTicket (s : State n U) (w : Fin (n + 1)) : Ticket n U → Prop
  | .listed => w ∈ s.idle
  | .popped c => s.waking c = some (.wakes w)
  | .woken => s.woken w = true

/-- A worker has one ticket from when it registers as idle until it takes itself off the list or
wakes up. -/
structure Tickets (s : State n U) : Prop where
  nodup : s.idle.Nodup
  ticket : ∀ w, Token (HasTicket s w) (if (s.place w).window then 1 else 0)
  sleepsFound : ∀ w, s.place w = .sleepsFound → w ∉ s.idle
  flagged : ∀ w, s.flag w = true → (s.place w).stopped = true → s.woken w = true

omit [DecidableEq U] in
theorem tickets_init : Tickets (init : State n U) := by
  refine ⟨List.nodup_nil,fun w => token_none fun z => ?_,nofun,nofun⟩
  cases z with
  | listed => exact List.not_mem_nil
  | popped c => cases c <;> exact nofun
  | woken => exact nofun

omit [DecidableEq U] in
theorem goto_place_self (s : State n U) (w : Fin (n + 1)) (x : At n) : (s.goto w x).place w = x := Function.update_self ..

omit [DecidableEq U] in
theorem goto_place_ne (s : State n U) (x : At n) (h : v ≠ w) : (s.goto w x).place v = s.place v := Function.update_of_ne h ..

theorem ticket_goto (hz : (s.place w).waking = none) (hx : x.waking = none ∨ x.waking = some .starts) (k : Ticket n U) :
    HasTicket (s.goto w x) v k ↔ HasTicket s v k := by
  cases k with
  | listed | woken => rfl
  | popped c =>
    rw [HasTicket,HasTicket,waking_goto]
    by_cases hc : c = .inl w
    · subst hc
      have hnone : s.waking (.inl w) = none := hz
      rw [if_pos rfl,hnone]
      rcases hx with hx | hx <;> simp [hx]
    · rw [if_neg hc]

theorem Tickets.goes {z : At n} (h : Tickets s) (hw : s.place w = z) (hwindow : x.window = z.window) (hz : z.waking = none)
    (hx : x.waking = none ∨ x.waking = some .starts) (hfound : x = .sleepsFound → w ∉ s.idle)
    (hstop : x.stopped = true → z.stopped = true ∨ s.flag w = false) : Tickets (s.goto w x) := by
  subst hw
  refine ⟨h.nodup,fun v => ?_,fun v hv => ?_,fun v hf hv => ?_⟩ <;> by_cases hvw : v = w
  · subst hvw
    rw [goto_place_self,hwindow]
    exact (h.ticket v).same (ticket_goto hz hx)
  · rw [goto_place_ne s x hvw]
    exact (h.ticket v).same (ticket_goto hz hx)
  · subst hvw
    rw [goto_place_self] at hv
    exact hfound hv
  · rw [goto_place_ne s x hvw] at hv
    exact h.sleepsFound v hv
  · subst hvw
    rw [goto_place_self] at hv
    rcases hstop hv with hv | hv
    · exact h.flagged v hf hv
    · exact absurd (hv.symm.trans hf) nofun
  · rw [goto_place_ne s x hvw] at hv
    exact h.flagged v hf hv

omit [DecidableEq U] in
theorem window_of_waking {y : Waking n} (hc : s.waking c = some y) (w : Fin (n + 1)) (hw : c = .inl w) :
    (s.place w).window = false := by
  subst hw
  have hc : (s.place w).waking = some y := hc
  cases hp : s.place w <;> rw [hp] at hc <;> first | rfl | cases hc

theorem ticket_wake (hy : ∀ v, y = some (.wakes v) ↔ s.waking c = some (.wakes v)) (k : Ticket n U) :
    HasTicket (s.wake c y) v k ↔ HasTicket s v k := by
  cases k with
  | listed => rw [HasTicket,wake_idle]; rfl
  | woken => rw [HasTicket,wake_woken]; rfl
  | popped d =>
    rw [HasTicket,waking_wake]
    by_cases hd : d = c
    · subst hd
      rw [if_pos rfl,hy]
      rfl
    · rw [if_neg hd]
      rfl

/-- Where a worker is that is in a `wakeIdle` or just came out of it. -/
theorem wake_place (w : Fin (n + 1)) : (s.wake c y).place w = s.place w ∨
    (c = .inl w ∧ ((s.wake c y).place w).window = false ∧ ((s.wake c y).place w).stopped = false) := by
  rcases c with v | u
  · by_cases hv : w = v
    · subst hv
      right
      have hplace : (s.wake (.inl w) y).place w = _ := goto_place_self ..
      rw [hplace]
      cases y <;> exact ⟨rfl,rfl,rfl⟩
    · exact .inl (goto_place_ne s _ hv)
  · exact .inl rfl

/-- A thread that goes on in a `wakeIdle` moves no worker's place. -/
theorem tickets_wake (hnodup : s.idle.Nodup) (hfound : ∀ v, s.place v = .sleepsFound → v ∉ s.idle)
    (hflagged : ∀ v, s.flag v = true → (s.place v).stopped = true → s.woken v = true)
    (hc : ∀ w, c = .inl w → (s.place w).window = false)
    (hticket : ∀ v, Token (HasTicket (s.wake c y) v) (if (s.place v).window then 1 else 0)) : Tickets (s.wake c y) := by
  refine ⟨by rw [wake_idle]; exact hnodup,fun v => ?_,fun v hv => ?_,fun v hf hv => ?_⟩
  · rcases wake_place (s := s) (c := c) (y := y) v with hp | ⟨hcv,hp,-⟩
    · rw [hp]
      exact hticket v
    · rw [hp]
      have := hticket v
      rwa [hc v hcv] at this
  · rw [wake_idle]
    rcases wake_place (s := s) (c := c) (y := y) v with hp | ⟨-,hp,-⟩
    · exact hfound v (hp ▸ hv)
    · rw [hv] at hp; cases hp
  · rw [wake_woken]
    rw [wake_flag] at hf
    rcases wake_place (s := s) (c := c) (y := y) v with hp | ⟨-,-,hp⟩
    · exact hflagged v hf (hp ▸ hv)
    · rw [hv] at hp; cases hp

theorem Tickets.wake (h : Tickets s) (hc : ∀ w, c = .inl w → (s.place w).window = false)
    (hy : ∀ v, y = some (.wakes v) ↔ s.waking c = some (.wakes v)) : Tickets (s.wake c y) :=
  tickets_wake h.nodup h.sleepsFound h.flagged hc fun v => (h.ticket v).same (ticket_wake hy)

omit [DecidableEq U] in
theorem Tickets.same (h : Tickets s) (hidle : t.idle = s.idle) (hwaking : t.waking = s.waking) (hwoken : t.woken = s.woken)
    (hplace : t.place = s.place) (hflag : ∀ w, t.flag w = true → (s.place w).stopped = true → s.flag w = true) : Tickets t := by
  refine ⟨by rw [hidle]; exact h.nodup,fun w => ?_,fun w hw => ?_,fun w hf hw => ?_⟩
  · rw [hplace]
    refine (h.ticket w).same fun k => ?_
    cases k with
    | listed => rw [HasTicket,hidle]; rfl
    | popped c => rw [HasTicket,hwaking]; rfl
    | woken => rw [HasTicket,hwoken]; rfl
  · rw [hidle]
    exact h.sleepsFound w (hplace ▸ hw)
  · rw [hplace] at hw
    rw [hwoken]
    exact h.flagged w (hflag w hf hw) hw

omit [DecidableEq U] in
theorem Tickets.unregistered (h : Tickets s) (hw : (s.place w).window = false) (k : Ticket n U) : ¬HasTicket s w k := by
  have := h.ticket w
  rw [hw] at this
  exact this.free

theorem Tickets.register (h : Tickets s) (hw : s.place w = .registers) :
    Tickets ({ s with idle := s.idle ++ [w] }.goto w .stops) := by
  have hnone := h.unregistered (w := w) (by rw [hw]; rfl)
  have hplace : (State.goto { s with idle := s.idle ++ [w] } w .stops).place w = .stops := goto_place_self ..
  have hother (v : Fin (n + 1)) (hv : v ≠ w) :
    (State.goto { s with idle := s.idle ++ [w] } w .stops).place v = s.place v := goto_place_ne _ _ hv
  refine ⟨?_,fun v => ?_,fun v hv => ?_,fun v hf hv => ?_⟩
  · exact List.Nodup.append h.nodup (List.nodup_singleton w) (List.disjoint_singleton.mpr (hnone .listed))
  · have hv := h.ticket v
    have hticket (k : Ticket n U) := ticket_goto (s := { s with idle := s.idle ++ [w] }) (x := .stops) (v := v)
      (congrArg At.waking hw) (.inl rfl) k
    by_cases hvw : v = w
    · subst hvw
      rw [hplace]
      rw [hw] at hv
      refine Token.enter (b := .listed) hv fun k => (hticket k).trans ?_
      cases k with
      | listed => simp [HasTicket]
      | popped c | woken => exact (or_iff_left nofun).symm
    · rw [hother v hvw]
      refine hv.same fun k => (hticket k).trans ?_
      cases k with
      | listed => simp [HasTicket,hvw]
      | popped c | woken => rfl
  · have hvw : v ≠ w := by
      rintro rfl
      rw [hplace] at hv
      cases hv
    rw [hother v hvw] at hv
    simpa [State.goto,hvw] using h.sleepsFound v hv
  · have hvw : v ≠ w := by
      rintro rfl
      rw [hplace] at hv
      cases hv
    rw [hother v hvw] at hv
    exact h.flagged v hf hv

theorem Tickets.unregister (h : Tickets s) (hw : s.place w = .unregisters) (hmem : w ∈ s.idle) :
    Tickets ({ s with idle := s.idle.erase w }.goto w .found) := by
  have hplace : (State.goto { s with idle := s.idle.erase w } w .found).place w = .found := goto_place_self ..
  have hother (v : Fin (n + 1)) (hv : v ≠ w) :
    (State.goto { s with idle := s.idle.erase w } w .found).place v = s.place v := goto_place_ne _ _ hv
  refine ⟨h.nodup.erase w,fun v => ?_,fun v hv hmem => ?_,fun v hf hv => ?_⟩
  · have hv := h.ticket v
    have hticket (k : Ticket n U) := ticket_goto (s := { s with idle := s.idle.erase w }) (x := .found) (v := v)
      (congrArg At.waking hw) (.inl rfl) k
    by_cases hvw : v = w
    · subst hvw
      rw [hplace]
      rw [hw] at hv
      refine Token.leave (a := .listed) hv (show HasTicket s v .listed from hmem) fun k => (hticket k).trans ?_
      cases k with
      | listed => simp [HasTicket,h.nodup.mem_erase_iff]
      | popped c | woken => exact (and_iff_left nofun).symm
    · rw [hother v hvw]
      refine hv.same fun k => (hticket k).trans ?_
      cases k with
      | listed => simp [HasTicket,h.nodup.mem_erase_iff,hvw]
      | popped c | woken => rfl
  · have hvw : v ≠ w := by
      rintro rfl
      rw [hplace] at hv
      cases hv
    rw [hother v hvw] at hv
    exact h.sleepsFound v hv (List.mem_of_mem_erase hmem)
  · have hvw : v ≠ w := by
      rintro rfl
      rw [hplace] at hv
      cases hv
    rw [hother v hvw] at hv
    exact h.flagged v hf hv

theorem Tickets.wakeUp (h : Tickets s) (hw : (s.place w).window = true ∧ (s.place w).waking = none)
    (hx : x.window = false ∧ x.waking = none ∧ x.stopped = false) (hwoken : s.woken w = true) :
    Tickets ((s.setWoken w false).goto w x) := by
  have hplace : ((s.setWoken w false).goto w x).place w = x := goto_place_self ..
  have hother (v : Fin (n + 1)) (hv : v ≠ w) : ((s.setWoken w false).goto w x).place v = s.place v := goto_place_ne _ _ hv
  have hticket (v : Fin (n + 1)) (k : Ticket n U) := ticket_goto (s := s.setWoken w false) (v := v) hw.2 (.inl hx.2.1) k
  refine ⟨h.nodup,fun v => ?_,fun v hv => ?_,fun v hf hv => ?_⟩ <;> by_cases hvw : v = w
  · subst hvw
    have hv := h.ticket v
    rw [hw.1] at hv
    rw [hplace,hx.1]
    refine Token.leave (a := .woken) hv (show HasTicket s v .woken from hwoken) fun k => (hticket v k).trans ?_
    cases k with
    | listed => simp [HasTicket,State.setWoken]
    | popped c => exact (and_iff_left (by rintro ⟨⟩)).symm
    | woken => simp [HasTicket,State.setWoken]
  · rw [hother v hvw]
    refine (h.ticket v).same fun k => (hticket v k).trans ?_
    cases k with
    | listed | popped c => rfl
    | woken => simp [HasTicket,State.setWoken,hvw]
  · subst hvw
    rw [hplace] at hv
    subst hv
    cases hx.1
  · rw [hother v hvw] at hv
    exact h.sleepsFound v hv
  · subst hvw
    rw [hplace,hx.2.2] at hv
    cases hv
  · rw [hother v hvw] at hv
    have hvwoken : (State.goto (s.setWoken w false) w x).woken v = s.woken v := Function.update_of_ne hvw ..
    rw [hvwoken]
    exact h.flagged v hf hv

/-- Taking a worker off the idle list passes its ticket to the thread that takes it. -/
theorem Tickets.pop (h : Tickets s) (hc : s.waking c = some .pops) (hw : s.idle.getLast? = some w) :
    Tickets ({ s with idle := s.idle.dropLast }.wake c (some (.wakes w))) := by
  obtain ⟨l,hl⟩ := List.getLast?_eq_some_iff.mp hw
  have hdrop : s.idle.dropLast = l := by rw [hl,List.dropLast_concat]
  have hnodup := h.nodup
  rw [hl] at hnodup
  have hnot : w ∉ l := fun hmem => List.disjoint_of_nodup_append hnodup hmem (List.mem_singleton_self w)
  have hmem (v : Fin (n + 1)) : v ∈ s.idle ↔ v ∈ l ∨ v = w := by rw [hl,List.mem_append,List.mem_singleton]
  rw [hdrop]
  refine tickets_wake (s := { s with idle := l }) (List.Nodup.of_append_left hnodup)
    (fun v hv hvl => h.sleepsFound v hv ((hmem v).mpr (.inl hvl))) h.flagged (window_of_waking hc) fun v => ?_
  have hpopped (k : Thread n U) : (State.wake { s with idle := l } c (some (.wakes w))).waking k =
      if k = c then some (.wakes w) else s.waking k := waking_wake ..
  by_cases hvw : v = w
  · subst hvw
    refine (h.ticket v).pass (a := .listed) (b := .popped c) ((hmem v).mpr (.inr rfl)) fun k => ?_
    cases k with
    | listed => simpa [HasTicket] using hnot
    | popped d =>
      by_cases hd : d = c
      · simp [HasTicket,hpopped,hd]
      · simp [HasTicket,hpopped,hd]
    | woken => simp [HasTicket]
  · refine (h.ticket v).same fun k => ?_
    cases k with
    | listed => simp [HasTicket,hmem,hvw]
    | popped d =>
      by_cases hd : d = c
      · subst hd
        simp [HasTicket,hpopped,hc,Ne.symm hvw]
      · simp [HasTicket,hpopped,hd]
    | woken => simp [HasTicket]

/-- The thread that took a worker off the idle list passes its ticket on by waking it. -/
theorem Tickets.wakes (h : Tickets s) (hc : s.waking c = some (.wakes w)) :
    Tickets (((s.setFlag w true).setWoken w true).wake c none) := by
  have hpopped (k : Thread n U) : (State.wake ((s.setFlag w true).setWoken w true) c none).waking k =
      if k = c then none else s.waking k := waking_wake ..
  refine tickets_wake (s := (s.setFlag w true).setWoken w true) h.nodup h.sleepsFound (fun v hf hv => ?_)
    (window_of_waking hc) fun v => ?_
  · by_cases hvw : v = w
    · simp [State.setWoken,hvw]
    · have hf' : s.flag v = true := by simpa [State.setFlag,State.setWoken,hvw] using hf
      simpa [State.setWoken,State.setFlag,hvw] using h.flagged v hf' hv
  by_cases hvw : v = w
  · subst hvw
    refine (h.ticket v).pass (a := .popped c) (b := .woken) hc fun k => ?_
    cases k with
    | listed => simp [HasTicket,State.setWoken,State.setFlag]
    | popped d =>
      by_cases hd : d = c
      · simp [HasTicket,hpopped,hd]
      · simp [HasTicket,hpopped,hd]
    | woken => simp [HasTicket,State.setWoken]
  · refine (h.ticket v).same fun k => ?_
    cases k with
    | listed => simp [HasTicket,State.setWoken,State.setFlag]
    | popped d =>
      by_cases hd : d = c
      · subst hd
        simp [HasTicket,hpopped,hc,Ne.symm hvw]
      · simp [HasTicket,hpopped,hd]
    | woken => simp [HasTicket,State.setWoken,State.setFlag,hvw]

theorem steps_tickets (hone : OneSearcher s) (h : Tickets s) (hs : Steps s a t) : Tickets t := by
  cases hs with
  | silent hq => exact h.goes rfl hq.window hq.waking.1 hq.waking.2 hq.sleepsFound hq.stopped
  | @acquires w i hi hw _ =>
    have hsame : Tickets { s with owner := Function.update s.owner ⟨i,hi⟩ (some w) } :=
      h.same rfl rfl rfl rfl fun _ hf _ => hf
    exact hsame.goes hw rfl rfl (.inl rfl) (by rintro ⟨⟩) (by rintro ⟨⟩)
  | @takes w p hw =>
    have hsame : Tickets (s.hold w (some p)) := h.same rfl rfl rfl rfl fun _ hf _ => hf
    exact hsame.goes hw rfl rfl (.inl rfl) (by rintro ⟨⟩) (by rintro ⟨⟩)
  | @popOwn w p l hw _ =>
    have hsame : Tickets (s.take p 1) := h.same rfl rfl rfl rfl fun _ hf _ => hf
    cases l <;> exact hsame.goes hw rfl rfl (.inl rfl) (by rintro ⟨⟩) fun h => .inl h
  | @popGlobal w l hw =>
    have hsame : Tickets { s with global := s.global - 1 } := h.same rfl rfl rfl rfl fun _ hf _ => hf
    cases l <;> exact hsame.goes hw rfl rfl (.inl rfl) (by rintro ⟨⟩) fun h => .inl h
  | @robs w v l k m m' hw =>
    have hsame : Tickets (s.take v m) := h.same rfl rfl rfl rfl fun _ hf _ => hf
    cases l <;> exact hsame.goes hw rfl rfl (.inl rfl) (by rintro ⟨⟩) fun h => .inl h
  | @moves w p l k hw _ =>
    have hsame : Tickets (s.push p) := h.same rfl rfl rfl rfl fun _ hf _ => hf
    cases l <;> exact hsame.goes hw rfl rfl (.inl rfl) (by rintro ⟨⟩) fun h => .inl h
  | @searches w hw _ _ =>
    have hsame : Tickets (State.setFlag { s with searching := 1 } w true) := by
      refine h.same rfl rfl rfl rfl fun v hf hv => ?_
      by_cases hvw : v = w
      · subst hvw
        rw [hw] at hv
        cases hv
      · simpa [State.setFlag,hvw] using hf
    exact hsame.goes hw rfl rfl (.inl rfl) (by rintro ⟨⟩) (by rintro ⟨⟩)
  | registers hw => exact h.register hw
  | @stops w x hw _ =>
    have hsame : Tickets (s.setFlag w false) := by
      refine h.same rfl rfl rfl rfl fun v hf _ => ?_
      by_cases hvw : v = w
      · subst hvw
        simp [State.setFlag] at hf
      · simpa [State.setFlag,hvw] using hf
    rcases hw with ⟨hw,rfl⟩ | ⟨hw,rfl⟩ <;> exact hsame.goes hw rfl rfl (.inl rfl) (by rintro ⟨⟩) (by rintro ⟨⟩)
  | @ends w x hw =>
    have hsame : Tickets { s with searching := s.searching - 1 } := h.same rfl rfl rfl rfl fun _ hf _ => hf
    rcases hw with ⟨hw,rfl⟩ | ⟨hw,rfl | rfl⟩
    · refine hsame.goes hw rfl rfl (.inl rfl) (by rintro ⟨⟩) fun _ => .inr ?_
      -- It is the one searcher as it counts itself out, so no thread has woken it to search.
      rw [Bool.eq_false_iff]
      intro hf
      exact absurd (hone.unique (show Counted s (.flag w) from hf) (show Counted s (.ends w) from congrArg At.ends hw)) (by rintro ⟨⟩)
    · exact hsame.goes hw rfl rfl (.inl rfl) (by rintro ⟨⟩) (by rintro ⟨⟩)
    · exact hsame.goes hw rfl rfl (.inl rfl) (by rintro ⟨⟩) (by rintro ⟨⟩)
  | unregisters hw hmem => exact h.unregister hw hmem
  | @wakesUp w x hw hwoken =>
    rcases hw with ⟨hw,rfl⟩ | ⟨hw,rfl⟩ <;> exact h.wakeUp (by rw [hw]; exact ⟨rfl,rfl⟩) ⟨rfl,rfl,rfl⟩ hwoken
  | @queuesOwn w p x hw _ hx =>
    have hsame : Tickets (s.push p) := h.same rfl rfl rfl rfl fun _ hf _ => hf
    refine hsame.wake (fun v hv => ?_) fun v => ?_
    · cases hv
      rw [show (s.push p).place w = _ from hw]
      rfl
    · rw [show (s.push p).waking (.inl w) = At.waking .runs from congrArg At.waking hw]
      rcases hx with rfl | rfl <;> exact iff_of_false (by rintro ⟨⟩) (by rintro ⟨⟩)
  | @queuesGlobal u hu =>
    have hsame : Tickets { s with global := s.global + 1 } := h.same rfl rfl rfl rfl fun _ hf _ => hf
    refine hsame.wake (by rintro _ ⟨⟩) fun v => ?_
    rw [show State.waking { s with global := s.global + 1 } (.inr u) = none from hu]
    exact iff_of_false (by rintro ⟨⟩) (by rintro ⟨⟩)
  | @counts c hc _ =>
    have hsame : Tickets { s with searching := 1 } := h.same rfl rfl rfl rfl fun _ hf _ => hf
    refine hsame.wake (window_of_waking hc) fun v => ?_
    rw [show State.waking { s with searching := 1 } c = _ from hc]
    exact iff_of_false (by rintro ⟨⟩) (by rintro ⟨⟩)
  | refused hc _ | noIdle hc _ =>
    refine h.wake (window_of_waking hc) fun v => ?_
    rw [hc]
    exact iff_of_false (by rintro ⟨⟩) (by rintro ⟨⟩)
  | popsIdle hc hw => exact h.pop hc hw
  | @givesBack c hc =>
    have hsame : Tickets { s with searching := s.searching - 1 } := h.same rfl rfl rfl rfl fun _ hf _ => hf
    refine hsame.wake (window_of_waking hc) fun v => ?_
    rw [show State.waking { s with searching := s.searching - 1 } c = _ from hc]
    exact iff_of_false (by rintro ⟨⟩) (by rintro ⟨⟩)
  | wakes hc => exact h.wakes hc

end Ens.Tasks.Scheduler
