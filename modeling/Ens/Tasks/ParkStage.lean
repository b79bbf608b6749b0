import Ens.Logic.Token
import Ens.Tasks.Park

/-! # The wake a task is owed

A task that one wake at a time is meant for. The wake is carried by the unparker that brings it or
noted in the park state until the park it ends, so the task comes back from a park only for a wake.
-/
set_option linter.all false
namespace Ens.Tasks.Park
open Tokens
variable {W U : Type} [DecidableEq W] [DecidableEq U]
variable {s t : State W U} {a : Action W U} {w : W} {u : U} {h : Holder W U} {b : Bool}

def Unpark.inFlight : Unpark → Bool
  | .reads | .sawParked | .sawRunning => true
  | .idle | .queues => false

def Carries (s : State W U) : Option U → Prop
  | some u => (s.unparks u).inFlight
  | none => s.parkState = .wakePending

def owed (b : Bool) : ℤ := if b then 1 else 0

inductive Waits (s : State W U) : Holder W U → Prop
  | parked : Waits s .parked
  | left {w : W} : s.works w = .left → Waits s (.worker w)
  | swapFailed {w : W} : s.works w = .swapFailed → s.parkState = .wakePending → Waits s (.worker w)

inductive Comes (s : State W U) : Holder W U → Prop
  | queue : Comes s .queue
  | unparker {u : U} : Comes s (.unparker u)
  | requeues {w : W} : s.works w = .requeues → Comes s (.worker w)

inductive Location
  | on
  | off
  | ended
  deriving DecidableEq

inductive Stage (s : State W U) : Location → Bool → Prop
  | on {w : W} {b : Bool} : HeldBy s (.worker w) → s.works w = .runs → Token (Carries s) (owed b) → Stage s .on b
  | waits {h : Holder W U} {b : Bool} : HeldBy s h → Waits s h → Token (Carries s) (owed b) → Stage s .off b
  | comes {h : Holder W U} : HeldBy s h → Comes s h → Token (Carries s) 0 → Stage s .off true
  | ended : HeldBy s .ended → Token (Carries s) 0 → Stage s .ended false

theorem stage_init : Stage (init : State W U) .off true := by
  refine .comes heldBy_init .queue (token_none fun y => ?_)
  cases y <;> simp [Carries,init,Unpark.inFlight]

/-! ### How the wake passes -/

omit [DecidableEq W] [DecidableEq U] in
theorem carries_congr (hp : t.parkState = .wakePending ↔ s.parkState = .wakePending) (hu : t.unparks = s.unparks)
    (y : Option U) : Carries t y ↔ Carries s y := by
  cases y with
  | none => exact hp
  | some v => simp [Carries,hu]

omit [DecidableEq W] in
theorem carries_unpark {x : Unpark} (hp : t.parkState = .wakePending ↔ s.parkState = .wakePending)
    (hu : t.unparks = (s.unpark u x).unparks) (y : Option U) :
    Carries t y ↔ (Carries s y ∧ y ≠ some u) ∨ (y = some u ∧ x.inFlight) := by
  cases y with
  | none => simpa [Carries] using hp
  | some v =>
    by_cases hv : v = u
    · subst hv; simp [Carries,hu,State.unpark]
    · simp [Carries,hu,State.unpark,hv]

omit [DecidableEq W] in
theorem token_unpark {k : ℤ} {x : Unpark} (h : Token (Carries s) k) (hu : (s.unparks u).inFlight) (hx : x.inFlight) :
    Token (Carries (s.unpark u x)) k := by
  refine h.pass (a := some u) (b := some u) hu fun y => ?_
  rw [carries_unpark (t := s.unpark u x) (s := s) (u := u) (x := x) .rfl rfl]
  simp [hx]

omit [DecidableEq W] in
theorem token_takeUp (h : Token (Carries s) 0) (hp : t.parkState = s.parkState)
    (hu : t.unparks = (s.unpark u .reads).unparks) : Token (Carries t) 1 := by
  refine h.enter (b := some u) fun y => ?_
  rw [carries_unpark (s := s) (u := u) (x := .reads) (by rw [hp]) hu]
  have : Carries s y → y ≠ some u := fun hy _ => h.free hy
  simp [Unpark.inFlight]
  tauto

omit [DecidableEq W] [DecidableEq U] in
theorem notPending {k : ℤ} (h : Token (Carries s) k) (hu : (s.unparks u).inFlight) : s.parkState ≠ .wakePending :=
  fun hp => Option.some_ne_none u (h.unique (a := some u) (b := none) hu hp)

/-! ### Where a step leaves the task -/

theorem HeldBy.worker_eq {v : W} (hh : HeldBy s (.worker w)) (hv : s.works v ≠ .free) : v = w := by
  cases hh.worker hv
  rfl

/-- While the task runs, only a wake's first steps and the task's own are to be made. -/
theorem stage_on_step (h : Stage s .on b) (hs : Steps s a t) :
    match a with
    | .park _ => Stage t .off b
    | .finish _ => b = false → Stage t .ended false
    | .unpark _ => b = false → Stage t .on true
    | .read _ | .swap _ => Stage t .on b
    | _ => False := by
  cases h with | @on w _ hh hw hk =>
  obtain ⟨h',hh'⟩ := steps_heldBy hh hs
  have hrun : s.parkState ≠ .parked := fun hp => by cases hh.parked.mp hp
  cases hs with
  | take hq _ => simp [hh.queued] at hq
  | swapFails hv _ | completeWrite hv | completeQueue hv | parks hv _ =>
    obtain rfl := hh.worker_eq (by rw [hv]; decide)
    rw [hw] at hv
    cases hv
  | queue hu => cases (hh.unparks _).mp hu
  | @park v hv =>
    obtain rfl := hh.worker_eq (by rw [hv]; decide)
    have hleft : (s.work v .left).works v = .left := Function.update_self ..
    obtain rfl := hh'.worker (w := v) (by rw [hleft]; decide)
    exact .waits hh' (.left hleft) (hk.same (carries_congr .rfl rfl))
  | @finish v hv =>
    rintro rfl
    obtain rfl := hh'.ended.mp rfl
    exact .ended hh' (hk.same (carries_congr .rfl rfl))
  | @unpark u hu =>
    rintro rfl
    obtain rfl := hh'.worker (w := w) (by simp [hw])
    exact .on hh' hw (token_takeUp hk rfl rfl)
  | @readParked u hu hp => exact absurd hp hrun
  | @readPending u hu hp => exact absurd hp (notPending hk (by rw [hu]; rfl))
  | @readRunning u hu hp =>
    obtain rfl := hh'.worker (w := w) (by simp [hw])
    exact .on hh' hw (token_unpark hk (by rw [hu]; rfl) rfl)
  | @swapParked u hu hp => exact absurd hp hrun
  | @swapRunning u hu hp =>
    obtain rfl := hh'.worker (w := w) (by simp [hw])
    refine .on hh' hw (hk.pass (a := some u) (b := none) (by simp [Carries,hu,Unpark.inFlight]) fun y => ?_)
    cases y with
    | none => simp [Carries]
    | some v => by_cases hv : v = u <;> simp [Carries,State.unpark,hv,Unpark.inFlight]
  | @again u hu =>
    obtain rfl := hh'.worker (w := w) (by simp [hw])
    exact .on hh' hw (token_unpark hk (by rcases hu with hu | hu <;> rw [hu] <;> rfl) rfl)

omit [DecidableEq W] [DecidableEq U] in
/-- With no wake noted, what holds a task that waits depends on the workers alone. -/
theorem Waits.calm (hw : Waits s h) (hp : s.parkState ≠ .wakePending) (hworks : t.works = s.works) : Waits t h := by
  cases hw with
  | parked => exact .parked
  | left hl => exact .left (by rw [hworks]; exact hl)
  | swapFailed _ hpend => exact absurd hpend hp

theorem Waits.held {h' : Holder W U} (hw : Waits s h) (hh : HeldBy s h) (hh' : HeldBy t h') (hworks : t.works = s.works)
    (hp : s.parkState = .parked → t.parkState = .parked) : h' = h := by
  cases hw with
  | parked => exact hh'.parked.mp (hp (hh.parked.mpr rfl))
  | left hl | swapFailed hl _ => exact hh'.worker (by rw [hworks,hl]; decide)

theorem Waits.unpark {k : ℤ} {x : Unpark} (hw : Waits s h) (hh : HeldBy s h) (hk : Token (Carries s) k)
    (hu : (s.unparks u).inFlight) (hx : x.inFlight) : HeldBy (s.unpark u x) h ∧ Waits (s.unpark u x) h ∧
      Token (Carries (s.unpark u x)) k := by
  refine ⟨hh.unpark ?_ ?_,hw.calm (notPending hk hu) rfl,token_unpark hk hu hx⟩
  · rintro rfl; cases hx
  · intro hq
    rw [hq] at hu
    cases hu

theorem stage_waits_step (hh : HeldBy s h) (hw : Waits s h) (hk : Token (Carries s) (owed b)) (hs : Steps s a t) :
    match a with
    | .take _ => b = true ∧ Stage t .on false
    | .park _ | .finish _ => False
    | .unpark _ => b = false → Stage t .off true
    | _ => Stage t .off b := by
  obtain ⟨h',hh'⟩ := steps_heldBy hh hs
  have hwork {v : W} (hv : s.works v ≠ .free) :
      s.works v = .left ∨ (s.works v = .swapFailed ∧ s.parkState = .wakePending) := by
    obtain rfl := hh.worker hv
    cases hw with
    | left hl => exact .inl hl
    | swapFailed hl hp => exact .inr ⟨hl,hp⟩
  cases hs with
  | take hq _ =>
    obtain rfl : h = .queue := by
      by_contra hne
      simp [hh.queued,hne] at hq
    cases hw
  | @park v hv | @finish v hv | @completeQueue v hv =>
    have := hwork (v := v) (by rw [hv]; decide)
    simp [hv] at this
  | queue hu =>
    obtain rfl := (hh.unparks _).mp hu
    cases hw
  | @swapFails v hv hp =>
    obtain rfl := hh.worker (w := v) (by rw [hv]; decide)
    have hpend : s.parkState = .wakePending := by
      have hne : s.parkState ≠ .parked := fun hq => by cases hh.parked.mp hq
      cases hq : s.parkState <;> simp_all
    have hfailed : (s.work v .swapFailed).works v = .swapFailed := Function.update_self ..
    obtain rfl := hh'.worker (w := v) (by rw [hfailed]; decide)
    exact .waits hh' (.swapFailed hfailed hpend) (hk.same (carries_congr .rfl rfl))
  | @completeWrite v hv =>
    have hpend : s.parkState = .wakePending := by
      have := hwork (v := v) (by rw [hv]; decide)
      simpa [hv] using this
    have hworks : (s.work v .requeues).works v = .requeues := Function.update_self ..
    obtain rfl := hh'.worker (w := v) (by simp [hworks])
    have hb : b = true := by
      cases b with
      | false => exact absurd hpend (hk.free (a := none))
      | true => rfl
    subst hb
    refine .comes hh' (.requeues hworks) (hk.leave (a := none) hpend fun y => ?_)
    cases y <;> simp [Carries]
  | @parks v hv hp =>
    obtain rfl := hh'.parked.mp rfl
    exact .waits hh' .parked (hk.same (carries_congr (by simp [hp]) rfl))
  | @unpark u hu =>
    rintro rfl
    obtain rfl := hw.held hh hh' rfl id
    exact .waits hh' (hw.calm (hk.free (a := none)) rfl) (token_takeUp hk rfl rfl)
  | @readPending u hu hp => exact absurd hp (notPending hk (by rw [hu]; rfl))
  | @readParked u hu hp =>
    obtain ⟨h₁,h₂,h₃⟩ := hw.unpark (x := .sawParked) hh hk (u := u) (by rw [hu]; rfl) rfl
    exact .waits h₁ h₂ h₃
  | @readRunning u hu hp =>
    obtain ⟨h₁,h₂,h₃⟩ := hw.unpark (x := .sawRunning) hh hk (u := u) (by rw [hu]; rfl) rfl
    exact .waits h₁ h₂ h₃
  | @again u hu =>
    obtain ⟨h₁,h₂,h₃⟩ := hw.unpark (x := .reads) hh hk (u := u) (by rcases hu with hu | hu <;> rw [hu] <;> rfl) rfl
    exact .waits h₁ h₂ h₃
  | @swapParked u hu hp =>
    have hqueues : (s.unpark u .queues).unparks u = .queues := Function.update_self ..
    obtain rfl := (hh'.unparks u).mp hqueues
    have hcarries : Carries s (some u) := by simp [Carries,hu,Unpark.inFlight]
    have hb : b = true := by
      cases b with
      | false => exact absurd hcarries hk.free
      | true => rfl
    subst hb
    refine .comes hh' .unparker (hk.leave hcarries fun y => ?_)
    refine Iff.trans (carries_unpark (s := s) (u := u) (x := .queues) (by simp [hp]) (by rfl) y) ?_
    simp [Unpark.inFlight]
  | @swapRunning u hu hp =>
    have hnot : s.parkState ≠ .wakePending := by rw [hp]; decide
    obtain rfl := hw.held hh hh' rfl (fun hq => by rw [hp] at hq; cases hq)
    refine .waits hh' (hw.calm hnot rfl) (hk.pass (a := some u) (b := none) (by simp [Carries,hu,Unpark.inFlight]) fun y => ?_)
    cases y with
    | none => simp [Carries]
    | some v => by_cases hv : v = u <;> simp [Carries,State.unpark,hv,Unpark.inFlight]

theorem stage_comes_step (hh : HeldBy s h) (hc : Comes s h) (hk : Token (Carries s) 0) (hs : Steps s a t) :
    match a with
    | .take _ => true = true ∧ Stage t .on false
    | .park _ | .finish _ => False
    | .unpark _ => true = false → Stage t .off true
    | _ => Stage t .off true := by
  obtain ⟨h',hh'⟩ := steps_heldBy hh hs
  have hwork {v : W} (hv : s.works v ≠ .free) : s.works v = .requeues := by
    obtain rfl := hh.worker hv
    cases hc with
    | requeues hr => exact hr
  have hidle (v : U) : (s.unparks v).inFlight = false := by
    have := hk.free (a := some v)
    simpa [Carries] using this
  cases hs with
  | @take v hq _ =>
    have hruns : (s.work v .runs).works v = .runs := Function.update_self ..
    obtain rfl := hh'.worker (w := v) (by simp [hruns])
    exact ⟨rfl,.on hh' hruns (hk.same (carries_congr .rfl rfl))⟩
  | @park v hv | @finish v hv | @swapFails v hv _ | @completeWrite v hv | @parks v hv _ =>
    have := hwork (v := v) (by rw [hv]; decide)
    rw [hv] at this
    cases this
  | @readPending u hu _ | @readParked u hu _ | @readRunning u hu _ | @swapParked u hu _ | @swapRunning u hu _ =>
    have := hidle u
    rw [hu] at this
    cases this
  | @again u hu =>
    have := hidle u
    rcases hu with hu | hu <;> rw [hu] at this <;> cases this
  | unpark hu => exact nofun
  | @completeQueue v hv =>
    have hqueued : h' = .queue := by
      by_contra hne
      have := hh'.queued
      simp [hne] at this
    subst hqueued
    exact .comes hh' .queue (hk.same (carries_congr .rfl rfl))
  | @queue u hu =>
    have hqueued : h' = .queue := by
      by_contra hne
      have := hh'.queued
      simp [hne] at this
    subst hqueued
    refine .comes hh' .queue (hk.same fun y => ?_)
    have hfree : ¬Carries s y := hk.free
    refine Iff.trans (carries_unpark (s := s) (u := u) (x := .idle) (by rfl) (by rfl) y) ?_
    simp [Unpark.inFlight,hfree]

/-- A task out of its context comes back for the wake it is owed and no other. -/
theorem stage_off_step (h : Stage s .off b) (hs : Steps s a t) :
    match a with
    | .take _ => b = true ∧ Stage t .on false
    | .park _ | .finish _ => False
    | .unpark _ => b = false → Stage t .off true
    | _ => Stage t .off b := by
  cases h with
  | @waits h b hh hw hk => exact stage_waits_step hh hw hk hs
  | @comes h hh hc hk => exact stage_comes_step hh hc hk hs

theorem stage_ended_step (h : Stage s .ended b) (hs : Steps s a t) : ∃ u, a = .unpark u := by
  cases h with | ended hh hk =>
  have hfree (v : W) : s.works v = .free := by
    by_contra hv
    cases hh.worker hv
  have hidle (v : U) : (s.unparks v).inFlight = false := by
    have := hk.free (a := some v)
    simpa [Carries] using this
  cases hs with
  | unpark _ => exact ⟨_,rfl⟩
  | take hq _ => simp [hh.queued] at hq
  | @park v hv | @finish v hv | @swapFails v hv _ | @completeWrite v hv | @completeQueue v hv | @parks v hv _ =>
    rw [hfree v] at hv
    cases hv
  | @readPending u hu _ | @readParked u hu _ | @readRunning u hu _ | @swapParked u hu _ | @swapRunning u hu _ =>
    have := hidle u
    rw [hu] at this
    cases this
  | @again u hu =>
    have := hidle u
    rcases hu with hu | hu <;> rw [hu] at this <;> cases this
  | queue hu => cases (hh.unparks _).mp hu

end Ens.Tasks.Park
