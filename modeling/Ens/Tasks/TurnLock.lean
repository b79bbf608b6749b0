import Ens.Logic.Exec
import Ens.Tasks.Monitor

/-! # The turn lock under a mutex

`leave` hands its wake to one waiter. The task woken looks at the holder again unless it
was cancelled meanwhile, and a task that gives up does not pass the wake on, so a wake
handed to a cancelled task is lost while others wait. Losing one is the only way to
strand a waiter.
-/
set_option linter.all false
namespace Ens.Tasks.TurnLock

/-- The lock with the monitor `guard`, whose one list is `free`, and the tasks between a
successful `enter` and their `leave`. -/
structure State where
  guard : Monitor Unit Unit := {}
  holder : ℕ := 0
  inside : List Token := []

def init : State := {}

local instance lawfulToken : LawfulBEq Token := inferInstance

inductive Action
  | enter (t : Token)
  | resume (t : Token)
  | leave (t : Token)
  | cancel (t : Token)
  | uncancel (t : Token)
  | interrupt (w : ℕ)

def look (s : State) (t : Token) : State :=
  if s.holder ≠ 0 then
    match s.guard.wait t () true () with
    | some m => { s with guard := m }
    | none => s
  else { s with holder := t, inside := s.inside ++ [t] }

/-- One lock section, or one wake or cancel from outside. A task calls `enter` outside the
lock and `leave` inside it, and a cancelled scope ends only where the task is not waiting. -/
def step (s : State) : Action → Option State
  | .enter t =>
    if t ∈ s.inside ∨ (s.guard.find t).isSome then none else some (look s t)
  | .resume t =>
    match s.guard.find t with
    | none => none
    | some p =>
      let s' := { s with guard := s.guard.unpark p }
      if s'.guard.doomed p then some s' else some (look s' t)
  | .leave t =>
    if t ∈ s.inside then
      some { s with holder := 0, guard := s.guard.wakeOne (), inside := s.inside.erase t }
    else none
  | .cancel t => some { s with guard := s.guard.cancel t true }
  | .uncancel t =>
    if (s.guard.find t).isSome then none else some { s with guard := s.guard.cancel t false }
  | .interrupt w => some { s with guard := s.guard.interrupt w }

/-- Where the lock is free and a task waits unwoken in `free`, some task woken from it is
still inside the loop and will look at the holder again. -/
def NotStranded (s : State) : Prop :=
  s.holder = 0 →
    (∃ p ∈ s.guard.parked, p.waiter ∈ (s.guard.lists ()).waiters ∧
      (s.guard.waiters p.waiter).woken = false) →
    ∃ p ∈ s.guard.parked, (s.guard.waiters p.waiter).woken = true ∧
      s.guard.cancelled p.task = false

instance (s : State) : Decidable (NotStranded s) :=
  inferInstanceAs (Decidable (s.holder = 0 → (∃ p ∈ s.guard.parked, _) → ∃ p ∈ s.guard.parked, _))

/-- The step loses the one wake on its way while another task waits unwoken: it cancels the
only task that would look again, or hands the wake to a task cancelled already. -/
def LosesWake (s : State) : Action → Prop
  | .cancel t => s.holder = 0 ∧ 0 < s.guard.unwoken () ∧
      ∀ p ∈ s.guard.parked, s.guard.looksAgain () p = true → p.task = t
  | .leave _ => s.guard.lookers () = 0 ∧ 1 < s.guard.unwoken () ∧
      ∃ p ∈ s.guard.parked, s.guard.next () = some p.waiter ∧ s.guard.cancelled p.task = true
  | _ => False

structure Inv (s : State) : Prop where
  guard : s.guard.Ok
  inside : s.inside.map Subtype.val = if s.holder = 0 then [] else [s.holder]
  cancellable : ∀ p ∈ s.guard.parked, p.cancellable = true

theorem inv_init : Inv init := ⟨Monitor.ok_init,rfl,by simp [init]⟩

variable {s s' : State} {t : Token} {a : Action}

theorem Inv.doomed (h : Inv s) {p : Parked Unit Unit} (hp : p ∈ s.guard.parked) :
    s.guard.doomed p = s.guard.cancelled p.task := by
  simp [Monitor.doomed,h.cancellable p hp]

theorem notStranded_iff (h : Inv s) :
    NotStranded s ↔ (s.holder = 0 → 0 < s.guard.unwoken () → 0 < s.guard.lookers ()) := by
  have hu : 0 < s.guard.unwoken () ↔ ∃ p ∈ s.guard.parked, p.waiter ∈ (s.guard.lists ()).waiters ∧
      (s.guard.waiters p.waiter).woken = false := by
    rw [Monitor.unwoken,List.countP_pos_iff]
    constructor
    · rintro ⟨p,hp,hw⟩
      simp only [Monitor.isUnwoken,Bool.and_eq_true,Bool.not_eq_true'] at hw
      exact ⟨p,hp,(h.guard.stands_of_unwoken hp hw.2).1,hw.2⟩
    · rintro ⟨p,hp,-,hw⟩
      exact ⟨p,hp,by simp [Monitor.isUnwoken,hw]⟩
  have hl : 0 < s.guard.lookers () ↔ ∃ p ∈ s.guard.parked, (s.guard.waiters p.waiter).woken = true ∧
      s.guard.cancelled p.task = false := by
    rw [Monitor.lookers,List.countP_pos_iff]
    constructor
    · rintro ⟨p,hp,hw⟩
      simp only [Monitor.looksAgain,Bool.and_eq_true,Bool.not_eq_true',h.doomed hp] at hw
      exact ⟨p,hp,hw.1.2,hw.2⟩
    · rintro ⟨p,hp,hw,hc⟩
      exact ⟨p,hp,by simp [Monitor.looksAgain,hw,hc,h.doomed hp]⟩
  rw [NotStranded,← hu,← hl]

/-! ### One step -/

theorem look_held (hh : s.holder ≠ 0) : (look s t).holder = s.holder ∧ (look s t).inside = s.inside := by
  simp only [look,hh,ne_eq,not_false_eq_true,↓reduceIte]
  split <;> exact ⟨rfl,rfl⟩

theorem look_holder_ne (s : State) (t : Token) : (look s t).holder ≠ 0 := by
  by_cases hh : s.holder = 0
  · simpa [look,hh] using t.property
  · rw [(look_held hh).1]; exact hh

theorem look_inv (h : Inv s) (ht : ∀ p ∈ s.guard.parked, p.task ≠ t) : Inv (look s t) := by
  by_cases hh : s.holder = 0
  · have hi : s.inside = [] := List.map_eq_nil_iff.mp (by rw [h.inside]; simp [hh])
    refine ⟨?_,?_,?_⟩
    · simpa [look,hh] using h.guard
    · simp [look,hh,hi,t.property]
    · simpa [look,hh] using h.cancellable
  · simp only [look,hh,ne_eq,not_false_eq_true,↓reduceIte]
    by_cases hc : s.guard.cancelled t = true
    · simpa [Monitor.wait,hc] using h
    · simp only [Monitor.wait,hc,Bool.and_false,Bool.false_eq_true,↓reduceIte]
      refine ⟨Monitor.park_ok h.guard ht () true (),h.inside,?_⟩
      intro p hp
      rcases List.mem_append.mp hp with hp | hp
      · exact h.cancellable p hp
      · rw [List.mem_singleton.mp hp]

theorem unpark_inv (h : Inv s) {p : Parked Unit Unit} (hp : p ∈ s.guard.parked) :
    Inv { s with guard := s.guard.unpark p } :=
  ⟨Monitor.unpark_ok h.guard hp,h.inside,fun q hq => h.cancellable q (List.mem_filter.mp hq).1⟩

theorem leave_inv (h : Inv s) (ht : t ∈ s.inside) :
    Inv { s with holder := 0, guard := s.guard.wakeOne (), inside := s.inside.erase t } := by
  have hi := h.inside
  refine ⟨Monitor.wakeOne_ok h.guard (),?_,h.cancellable⟩
  split at hi
  · rw [List.map_eq_nil_iff.mp hi] at ht; cases ht
  · obtain ⟨u,hu,-⟩ := List.map_eq_singleton_iff.mp hi
    rw [hu] at ht ⊢
    simp [List.mem_singleton.mp ht]

theorem step_inv (s : State) (a : Action) (s' : State) (h : Inv s) (hs : step s a = some s') : Inv s' := by
  cases a with
  | enter t =>
    simp only [step] at hs
    split at hs
    · cases hs
    · rename_i hn
      cases hs
      have hf : s.guard.find t = none := by simpa using (not_or.mp hn).2
      exact look_inv h (Monitor.find_none hf)
  | resume t =>
    simp only [step] at hs
    split at hs
    · cases hs
    · rename_i p hf
      obtain ⟨hp,rfl⟩ := Monitor.find_some hf
      have hu := unpark_inv h hp
      split at hs
      · cases hs; exact hu
      · cases hs
        exact look_inv hu fun q hq => by simpa using (List.mem_filter.mp hq).2
  | leave t =>
    simp only [step] at hs
    split at hs
    · rename_i ht; cases hs; exact leave_inv h ht
    · cases hs
  | cancel t => cases hs; exact ⟨Monitor.cancel_ok h.guard t true,h.inside,h.cancellable⟩
  | uncancel t =>
    simp only [step] at hs
    split at hs
    · cases hs
    · cases hs; exact ⟨Monitor.cancel_ok h.guard t false,h.inside,h.cancellable⟩
  | interrupt w => cases hs; exact ⟨Monitor.interrupt_ok h.guard w,h.inside,h.cancellable⟩

theorem giveUp_notStranded (h : Inv s) {p : Parked Unit Unit} (hp : p ∈ s.guard.parked)
    (hd : s.guard.doomed p = true) (hn : NotStranded s) :
    NotStranded { s with guard := s.guard.unpark p } := by
  rw [notStranded_iff (unpark_inv h hp)]
  rw [notStranded_iff h] at hn
  intro hh hu
  have hl := Monitor.unpark_lookers h.guard hp ()
  have hw := Monitor.unpark_unwoken h.guard hp ()
  have hnot : s.guard.looksAgain () p = false := by simp [Monitor.looksAgain,hd]
  rw [hnot,Bool.toNat_false] at hl
  dsimp only at hu ⊢
  have := hn hh (by omega)
  omega

theorem cancel_notStranded_iff (h : Inv s) (t : Token) :
    NotStranded { s with guard := s.guard.cancel t true } ↔ ¬LosesWake s (.cancel t) := by
  have hi : Inv { s with guard := s.guard.cancel t true } :=
    ⟨Monitor.cancel_ok h.guard t true,h.inside,h.cancellable⟩
  rw [notStranded_iff hi]
  simp only [LosesWake,Monitor.cancel_unwoken,not_and,not_forall]
  have hl : 0 < (s.guard.cancel t true).lookers () ↔
      ∃ p, ∃ (_ : p ∈ s.guard.parked) (_ : s.guard.looksAgain () p = true), ¬p.task = t := by
    rw [Monitor.lookers,List.countP_pos_iff]
    constructor
    · rintro ⟨p,hp,hw⟩
      have hc : p.task ≠ t := by
        rintro rfl
        simp [Monitor.looksAgain,Monitor.doomed,Monitor.cancel,h.cancellable p hp] at hw
      rw [Monitor.looksAgain,Monitor.cancel_doomed_of_ne hc] at hw
      exact ⟨p,hp,hw,hc⟩
    · rintro ⟨p,hp,hw,hc⟩
      refine ⟨p,hp,?_⟩
      rw [Monitor.looksAgain,Monitor.cancel_doomed_of_ne hc]
      exact hw
  rw [hl]

theorem leave_notStranded_iff (h : Inv s) (ht : t ∈ s.inside) :
    NotStranded { s with holder := 0, guard := s.guard.wakeOne (), inside := s.inside.erase t } ↔
      ¬LosesWake s (.leave t) := by
  rw [notStranded_iff (leave_inv h ht)]
  simp only [LosesWake,not_and,not_exists,forall_true_left]
  cases hx : s.guard.next () with
  | none =>
    obtain ⟨hu,-⟩ := Monitor.wakeOne_none h.guard hx ()
    rw [hu,Monitor.next_none_unwoken h.guard hx]
    simp
  | some w =>
    obtain ⟨p,hp,-,rfl,hw⟩ := h.guard.next_parked hx
    obtain ⟨hu,hl⟩ := Monitor.wakeOne_some h.guard hp hx ()
    rw [hl,h.doomed hp]
    have hu : (s.guard.wakeOne ()).unwoken () + 1 = s.guard.unwoken () := by simpa using hu
    constructor
    · intro hc hz hone q hq hqw
      have hqp : q = p := Count.eq_of_key h.guard.keys hq hp (Option.some.inj hqw).symm
      subst hqp
      intro hcan
      have := hc (by omega)
      simp [hcan,hz] at this
    · intro hc hpos
      by_cases hz : s.guard.lookers () = 0
      · have := hc hz (by omega) p hp rfl
        simp [this]
      · omega

theorem step_notStranded_iff (s : State) (a : Action) (s' : State) (h : Inv s) (hn : NotStranded s)
    (hs : step s a = some s') : NotStranded s' ↔ ¬LosesWake s a := by
  have hlook : ∀ (u : State) (t : Token), NotStranded (look u t) :=
    fun u t hh => absurd hh (look_holder_ne u t)
  cases a with
  | enter t =>
    simp only [step] at hs
    split at hs
    · cases hs
    · cases hs; exact iff_of_true (hlook _ _) not_false
  | resume t =>
    simp only [step] at hs
    split at hs
    · cases hs
    · rename_i p hf
      obtain ⟨hp,rfl⟩ := Monitor.find_some hf
      split at hs
      · rename_i hd
        cases hs
        exact iff_of_true (giveUp_notStranded h hp hd hn) not_false
      · cases hs; exact iff_of_true (hlook _ _) not_false
  | leave t =>
    simp only [step] at hs
    split at hs
    · rename_i ht; cases hs; exact leave_notStranded_iff h ht
    · cases hs
  | cancel t => cases hs; exact cancel_notStranded_iff h t
  | uncancel t =>
    simp only [step] at hs
    split at hs
    · cases hs
    · rename_i hf
      cases hs
      have hi : Inv { s with guard := s.guard.cancel t false } :=
        ⟨Monitor.cancel_ok h.guard t false,h.inside,h.cancellable⟩
      refine iff_of_true ?_ not_false
      rw [notStranded_iff hi]
      dsimp only
      rw [Monitor.cancel_unwoken,Monitor.cancel_lookers_of_absent
        (Monitor.find_none (by simpa using hf))]
      exact (notStranded_iff h).mp hn
  | interrupt w =>
    cases hs
    have hi : Inv { s with guard := s.guard.interrupt w } :=
      ⟨Monitor.interrupt_ok h.guard w,h.inside,h.cancellable⟩
    refine iff_of_true ?_ not_false
    rw [notStranded_iff hi]
    rw [notStranded_iff h] at hn
    have hm := Monitor.interrupt_mono s.guard w ()
    intro hh hu
    dsimp only at hu ⊢
    have := hn hh (by omega)
    omega

theorem notStranded_init : NotStranded init := by
  rintro - ⟨p,hp,-⟩
  simp [init] at hp

/-! ### Whole executions -/

/-- At most one task is inside in every state reached, and an execution strands no waiter in
any state exactly when no step of it loses a wake. -/
theorem enter_leave (as : List Action) (s : State) (h : Exec.exec step init as = some s) :
    s.inside.length ≤ 1 ∧
    (Exec.HoldsAlong step NotStranded init as ↔
      Exec.StepsMeet step (fun s a => ¬LosesWake s a) init as) := by
  have hi := Exec.exec_invariant inv_init step_inv h
  constructor
  · have hl := congrArg List.length hi.inside
    rw [List.length_map] at hl
    rw [hl]
    split <;> simp
  · exact Exec.holdsAlong_iff_stepsMeet inv_init notStranded_init step_inv step_notStranded_iff h

private theorem two_ne : (2 : ℕ) ≠ 0 := by decide
private theorem three_ne : (3 : ℕ) ≠ 0 := by decide

private abbrev one : Token := ⟨1,Nat.one_ne_zero⟩
private abbrev two : Token := ⟨2,two_ne⟩
private abbrev three : Token := ⟨3,three_ne⟩

private abbrev lostWake : List Action :=
  [.enter one,.enter two,.enter three,.leave one,.cancel two,.resume two]

theorem enter_leave_lostWake : ∃ s, Exec.exec step init lostWake = some s ∧ s.inside.length ≤ 1 ∧
    (Exec.HoldsAlong step NotStranded init lostWake ↔
      Exec.StepsMeet step (fun s a => ¬LosesWake s a) init lostWake) :=
  ⟨_,rfl,enter_leave lostWake _ rfl⟩

/-- Two tasks wait, the holder leaves, and the task it woke is cancelled before it runs: the
lock is free, the other task still waits unwoken, and no task will look at the holder. -/
theorem enter_leave_strands : ∃ as s, Exec.exec step init as = some s ∧ ¬NotStranded s :=
  ⟨lostWake,_,rfl,by decide⟩

end Ens.Tasks.TurnLock
