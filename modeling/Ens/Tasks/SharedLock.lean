import Ens.Logic.Exec
import Ens.Tasks.Monitor

/-! # A lock for many tasks at once or one alone

One wait list serves three waits: to share, to claim the lock alone, and, once claimed, for the
sharers to leave. Every step that can make one of the conditions hold wakes the whole list.
-/
set_option linter.all false
namespace Ens.Tasks.SharedLock

inductive Loop
  | share
  | claim
  | drain
  deriving DecidableEq

/-- The lock with the monitor `guard`, whose one list is `changed`, the tasks between `enterShared`
and `leaveShared`, once for each time they entered, and those between `enterAlone` and `leaveAlone`. -/
structure State where
  guard : Monitor Unit Loop := {}
  sharing : ℤ := 0
  alone : Bool := false
  sharers : List Token := []
  inside : List Token := []

def init : State := {}

inductive Action
  | enterShared (t : Token)
  | leaveShared (t : Token)
  | enterAlone (t : Token)
  | leaveAlone (t : Token)
  | resume (t : Token)
  | interrupt (w : ℕ)

def share (s : State) (t : Token) : State :=
  if s.alone then { s with guard := s.guard.park t () false .share }
  else { s with sharing := s.sharing + 1, sharers := s.sharers ++ [t] }

def drain (s : State) (t : Token) : State :=
  if s.sharing > 0 then { s with guard := s.guard.park t () false .drain }
  else { s with inside := s.inside ++ [t] }

def claim (s : State) (t : Token) : State :=
  if s.alone then { s with guard := s.guard.park t () false .claim }
  else drain { s with alone := true } t

def goOn (s : State) (t : Token) : Loop → State
  | .share => share s t
  | .claim => claim s t
  | .drain => drain s t

def leaveShared (s : State) (t : Token) : State :=
  { s with
    sharing := s.sharing - 1
    sharers := s.sharers.erase t
    guard := if s.sharing - 1 = 0 then s.guard.wakeAll () else s.guard }

def leaveAlone (s : State) (t : Token) : State :=
  { s with alone := false, inside := s.inside.erase t, guard := s.guard.wakeAll () }

/-- One lock section, or a wake from outside. A task that waits calls nothing, and a task leaves
what it has entered. A wait also ends with no wake. -/
def step (s : State) : Action → Option State
  | .enterShared t => if (s.guard.find t).isSome then none else some (share s t)
  | .enterAlone t => if (s.guard.find t).isSome then none else some (claim s t)
  | .leaveShared t => if t ∈ s.sharers ∧ s.guard.find t = none then some (leaveShared s t) else none
  | .leaveAlone t => if t ∈ s.inside ∧ s.guard.find t = none then some (leaveAlone s t) else none
  | .resume t => (s.guard.find t).map fun p => goOn { s with guard := s.guard.unpark p } t p.frame
  | .interrupt w => some { s with guard := s.guard.interrupt w }

def ready (s : State) : Loop → Prop
  | .drain => s.sharing ≤ 0
  | _ => s.alone = false

/-- No task that waits unwoken could go on. -/
def NotStranded (s : State) : Prop :=
  ∀ p ∈ s.guard.parked, (s.guard.waiters p.waiter).woken = false → ¬ready s p.frame

def drainers (s : State) : ℕ := s.guard.parked.countP fun p => p.frame = .drain

structure Inv (s : State) : Prop where
  guard : s.guard.Ok
  sharing : s.sharing = s.sharers.length
  claimed : drainers s + s.inside.length = s.alone.toNat
  excludes : s.inside ≠ [] → s.sharers = []
  notStranded : NotStranded s

theorem inv_init : Inv init :=
  ⟨Monitor.ok_init,rfl,rfl,fun h => absurd rfl h,nofun⟩

variable {s s' : State} {t : Token} {a : Action} {m : Monitor Unit Loop} {p q : Parked Unit Loop} {f : Loop}

theorem park_inv (h : Inv s) (ht : ∀ p ∈ s.guard.parked, p.task ≠ t) (hf : ¬ready s f) (hd : f ≠ .drain) :
    Inv { s with guard := s.guard.park t () false f } where
  guard := Monitor.park_ok h.guard ht () false f
  sharing := h.sharing
  claimed := by
    have hc := h.claimed
    simp only [drainers,Monitor.park_parked,List.countP_append,List.countP_singleton,hd,decide_false] at hc ⊢
    simpa using hc
  excludes := h.excludes
  notStranded p hp hw := by
    rcases List.mem_append.mp hp with hp | hp
    · rw [Monitor.park_woken h.guard false f hp] at hw
      exact h.notStranded p hp hw
    · rw [List.mem_singleton.mp hp]
      exact hf

theorem Inv.free (h : Inv s) (ha : s.alone = false) : drainers s = 0 ∧ s.inside = [] := by
  have hc := h.claimed
  rw [ha,Bool.toNat_false,Nat.add_eq_zero_iff,List.length_eq_zero_iff] at hc
  exact hc

theorem not_drain (h : drainers s = 0) (hp : p ∈ s.guard.parked) : p.frame ≠ .drain := by
  rw [drainers,List.countP_eq_zero] at h
  simpa using h p hp

theorem share_inv (h : Inv s) (ht : ∀ p ∈ s.guard.parked, p.task ≠ t) : Inv (share s t) := by
  by_cases ha : s.alone = true
  · rw [share,if_pos ha]
    exact park_inv (f := .share) h ht (by simp [ready,ha]) nofun
  · rw [share,if_neg ha]
    have ha : s.alone = false := by simpa using ha
    obtain ⟨hd,hi⟩ := h.free ha
    refine ⟨h.guard,by simp [h.sharing],h.claimed,fun hne => absurd hi hne,fun p hp hw hready => ?_⟩
    refine h.notStranded p hp hw ?_
    cases hf : p.frame with
    | drain => exact absurd hf (not_drain hd hp)
    | share => exact ha
    | claim => exact ha

structure Claimed (s : State) : Prop where
  guard : s.guard.Ok
  sharing : s.sharing = s.sharers.length
  alone : s.alone = true
  none : drainers s = 0 ∧ s.inside = []
  notStranded : NotStranded s

theorem drain_inv (h : Claimed s) (ht : ∀ p ∈ s.guard.parked, p.task ≠ t) : Inv (drain s t) := by
  obtain ⟨hd,hi⟩ := h.none
  unfold drain
  split
  · rename_i hpos
    refine ⟨Monitor.park_ok h.guard ht () false .drain,h.sharing,?_,fun hne => absurd hi hne,fun p hp hw => ?_⟩
    · rw [drainers] at hd
      simp [drainers,hd,hi,h.alone]
    · rcases List.mem_append.mp hp with hp | hp
      · rw [Monitor.park_woken h.guard false .drain hp] at hw
        exact h.notStranded p hp hw
      · rw [List.mem_singleton.mp hp]
        exact Int.not_le.mpr hpos
  · rename_i hpos
    have hs := h.sharing
    have hnil : s.sharers = [] := List.length_eq_zero_iff.mp (by omega)
    refine ⟨h.guard,h.sharing,?_,fun _ => hnil,h.notStranded⟩
    rw [drainers] at hd
    simp [drainers,hd,hi,h.alone]

theorem claim_inv (h : Inv s) (ht : ∀ p ∈ s.guard.parked, p.task ≠ t) : Inv (claim s t) := by
  by_cases ha : s.alone = true
  · rw [claim,if_pos ha]
    exact park_inv (f := .claim) h ht (by simp [ready,ha]) nofun
  · rw [claim,if_neg ha]
    refine drain_inv ⟨h.guard,h.sharing,rfl,h.free (by simpa using ha),fun p hp hw hready => ?_⟩ ht
    refine h.notStranded p hp hw ?_
    cases hf : p.frame with
    | drain => rwa [hf] at hready
    | share => rw [hf] at hready; cases hready
    | claim => rw [hf] at hready; cases hready

/-! ### Leaving and waiting again -/

theorem wakeAll_woken (hm : m.Ok) (hp : p ∈ m.parked) : ((m.wakeAll ()).waiters p.waiter).woken = true := by
  have hnone := List.countP_eq_zero.mp (Monitor.wakeAll_unwoken hm ()) p hp
  simpa [Monitor.isUnwoken] using hnone

theorem unpark_woken (m : Monitor Unit Loop) (p q : Parked Unit Loop) :
    ((m.unpark p).waiters q.waiter).woken = (m.waiters q.waiter).woken := by
  simp [Monitor.unpark,Monitor.setList]

theorem leaveShared_inv (h : Inv s) (ht : t ∈ s.sharers) : Inv (leaveShared s t) := by
  have hsharing := h.sharing
  have hlen := List.length_erase_of_mem ht
  have hpos := List.length_pos_of_mem ht
  have hguard : (leaveShared s t).guard.Ok := by
    unfold leaveShared
    split
    · exact Monitor.wakeAll_ok h.guard ()
    · exact h.guard
  have hparked : (leaveShared s t).guard.parked = s.guard.parked := by
    unfold leaveShared
    split <;> rfl
  refine ⟨hguard,?_,?_,fun hi => ?_,fun p hp hw hready => ?_⟩
  · show s.sharing - 1 = ((s.sharers.erase t).length : ℤ)
    omega
  · rw [drainers,hparked]
    exact h.claimed
  · rw [h.excludes hi] at ht
    cases ht
  · rw [hparked] at hp
    unfold leaveShared at hw hready
    dsimp only at hw
    split at hw
    · rw [wakeAll_woken h.guard hp] at hw
      cases hw
    · -- the sharers that are left are fewer, but some are left
      refine h.notStranded p hp hw ?_
      cases hf : p.frame with
      | drain =>
        rw [hf] at hready
        have : s.sharing - 1 ≤ 0 := hready
        omega
      | share => rwa [hf] at hready
      | claim => rwa [hf] at hready

theorem leaveAlone_inv (h : Inv s) (ht : t ∈ s.inside) : Inv (leaveAlone s t) := by
  have hlen := List.length_erase_of_mem ht
  have hpos := List.length_pos_of_mem ht
  have hc := h.claimed
  have hone := Bool.toNat_le s.alone
  have hdrain : drainers (leaveAlone s t) = drainers s := rfl
  refine ⟨Monitor.wakeAll_ok h.guard (),h.sharing,?_,fun _ => ?_,fun p hp hw => ?_⟩
  · rw [hdrain]
    show drainers s + (s.inside.erase t).length = 0
    omega
  · exact h.excludes (List.ne_nil_of_mem ht)
  · rw [leaveAlone,wakeAll_woken h.guard hp] at hw
    cases hw

theorem goOn_inv (h : Inv s) (hp : p ∈ s.guard.parked) :
    Inv (goOn { s with guard := s.guard.unpark p } p.task p.frame) := by
  have hok := Monitor.unpark_ok h.guard hp
  have hleft : ∀ q ∈ (s.guard.unpark p).parked, q.task ≠ p.task := fun q hq => by
    simpa using (List.mem_filter.mp hq).2
  have hunwoken : NotStranded { s with guard := s.guard.unpark p } := by
    intro q hq hw
    refine h.notStranded q (List.mem_filter.mp hq).1 ?_
    rwa [← unpark_woken s.guard p q]
  have hcount := Count.countP_drop (P := fun q => decide (q.frame = Loop.drain)) hp h.guard.tasks
  have hdrainers : drainers { s with guard := s.guard.unpark p } + (decide (p.frame = .drain)).toNat = drainers s := hcount
  have hkept (hf : p.frame ≠ .drain) : Inv { s with guard := s.guard.unpark p } := by
    refine ⟨hok,h.sharing,?_,h.excludes,hunwoken⟩
    rw [decide_eq_false hf,Bool.toNat_false,Nat.add_zero] at hdrainers
    rw [hdrainers]
    exact h.claimed
  cases hf : p.frame with
  | share => exact share_inv (hkept (by rw [hf]; nofun)) hleft
  | claim => exact claim_inv (hkept (by rw [hf]; nofun)) hleft
  | drain =>
    rw [decide_eq_true hf,Bool.toNat_true] at hdrainers
    have hc := h.claimed
    have hone := Bool.toNat_le s.alone
    have hlast : drainers { s with guard := s.guard.unpark p } = 0 := by omega
    have hinside : s.inside.length = 0 := by omega
    have halone : s.alone.toNat = 1 := by omega
    exact drain_inv ⟨hok,h.sharing,by simpa using halone,⟨hlast,List.length_eq_zero_iff.mp hinside⟩,hunwoken⟩ hleft

theorem step_inv (s : State) (a : Action) (s' : State) (h : Inv s) (hs : step s a = some s') : Inv s' := by
  cases a with
  | enterShared t =>
    simp only [step] at hs
    split at hs
    · cases hs
    · rename_i hn
      cases hs
      exact share_inv h (Monitor.find_none (by simpa using hn))
  | enterAlone t =>
    simp only [step] at hs
    split at hs
    · cases hs
    · rename_i hn
      cases hs
      exact claim_inv h (Monitor.find_none (by simpa using hn))
  | leaveShared t =>
    simp only [step] at hs
    split at hs
    · rename_i ht
      cases hs
      exact leaveShared_inv h ht.1
    · cases hs
  | leaveAlone t =>
    simp only [step] at hs
    split at hs
    · rename_i ht
      cases hs
      exact leaveAlone_inv h ht.1
    · cases hs
  | resume t =>
    obtain ⟨p,hf,rfl⟩ := Option.map_eq_some_iff.mp hs
    obtain ⟨hp,rfl⟩ := Monitor.find_some hf
    exact goOn_inv h hp
  | interrupt w =>
    cases hs
    refine ⟨Monitor.interrupt_ok h.guard w,h.sharing,h.claimed,h.excludes,fun p hp hw => h.notStranded p hp ?_⟩
    by_contra hwoken
    have hwoken : (s.guard.waiters p.waiter).woken = true := by simpa using hwoken
    simp [Monitor.interrupt,Waiters.wake_woken,hwoken] at hw

/-- In every state reached a task inside alone is the only one inside, the count of sharers is how
many are inside shared, and no task waits unwoken that could go on. -/
theorem sharedLock_excludes (as : List Action) (s : State) (h : Exec.exec step init as = some s) :
    (∀ t ∈ s.inside, s.inside = [t] ∧ s.sharers = []) ∧ s.sharing = s.sharers.length ∧ NotStranded s := by
  have hi := Exec.exec_invariant inv_init step_inv h
  refine ⟨fun t ht => ⟨?_,hi.excludes (List.ne_nil_of_mem ht)⟩,hi.sharing,hi.notStranded⟩
  have hc := hi.claimed
  have hone := Bool.toNat_le s.alone
  have hpos := List.length_pos_of_mem ht
  obtain ⟨u,hu⟩ := List.length_eq_one_iff.mp (show s.inside.length = 1 by omega)
  rw [hu] at ht ⊢
  rw [List.mem_singleton.mp ht]

private theorem bela_ne : (2 : ℕ) ≠ 0 := by decide
private theorem cleo_ne : (3 : ℕ) ≠ 0 := by decide

private abbrev anna : Token := ⟨1,Nat.one_ne_zero⟩
private abbrev bela : Token := ⟨2,bela_ne⟩
private abbrev cleo : Token := ⟨3,cleo_ne⟩

private abbrev claimed : List Action :=
  [.enterShared anna,.enterAlone bela,.enterShared cleo,.leaveShared anna,.resume bela,.resume cleo]

/-- One task claims the lock while another shares it, and a third waits to share it. -/
theorem sharedLock_excludes_claimed : ∃ s, Exec.exec step init claimed = some s ∧
    (∀ t ∈ s.inside, s.inside = [t] ∧ s.sharers = []) ∧ s.sharing = s.sharers.length ∧ NotStranded s :=
  ⟨_,rfl,sharedLock_excludes claimed _ rfl⟩

end Ens.Tasks.SharedLock
