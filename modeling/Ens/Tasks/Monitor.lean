import Ens.Logic.Count
import Ens.Tasks.Waiting

/-! # Monitors: tasks parked on the wait lists of one lock

A section of code between taking the monitor's lock and giving it up, at its end or in a
wait, is one step. A parked task goes on when it is woken, and may go on unwoken, since a
deadline or an unpark left over from an earlier wait also ends a park; it then takes itself
out of its list and asks whether it was cancelled.
-/
set_option linter.all false
namespace Ens.Tasks

abbrev Token := {n : ℕ // n ≠ 0}

/-- A task inside a wait: its waiter, the list the waiter was put in, whether a cancel ends
the wait, and what the task does after it. -/
structure Parked (ι F : Type) where
  task : Token
  waiter : ℕ
  list : ι
  cancellable : Bool
  frame : F

structure Monitor (ι F : Type) where
  waiters : Waiters := fun _ => {}
  made : ℕ := 0
  lists : ι → WaitList := fun _ => {}
  parked : List (Parked ι F) := []
  cancelled : Token → Bool := fun _ => false

namespace Monitor
variable {ι F : Type} [DecidableEq ι]

def setList (m : Monitor ι F) (i : ι) (r : Waiters × WaitList) : Monitor ι F :=
  { m with waiters := r.1, lists := Function.update m.lists i r.2 }

def park (m : Monitor ι F) (t : Token) (i : ι) (cancellable : Bool) (f : F) : Monitor ι F :=
  let ws := Function.update m.waiters m.made {}
  let m' := m.setList i (WaitList.add ws (m.lists i) m.made)
  { m' with made := m.made + 1, parked := m.parked ++ [⟨t,m.made,i,cancellable,f⟩] }

/-- The first half of `wait` and of `waitUnlessCancelled`, which does not park a task that
is cancelled already. -/
def wait (m : Monitor ι F) (t : Token) (i : ι) (cancellable : Bool) (f : F) :
    Option (Monitor ι F) :=
  if cancellable && m.cancelled t then none else some (m.park t i cancellable f)

def unpark (m : Monitor ι F) (p : Parked ι F) : Monitor ι F :=
  let m' := m.setList p.list (WaitList.remove m.waiters (m.lists p.list) p.waiter)
  { m' with parked := m.parked.filter fun q => q.task ≠ p.task }

def find (m : Monitor ι F) (t : Token) : Option (Parked ι F) :=
  m.parked.find? fun p => p.task = t

def wakeOne (m : Monitor ι F) (i : ι) : Monitor ι F :=
  m.setList i (WaitList.wakeOne m.waiters (m.lists i))

def wakeAll (m : Monitor ι F) (i : ι) : Monitor ι F :=
  m.setList i (WaitList.wakeAll m.waiters (m.lists i))

/-- A wake that comes from outside the monitor: from a cancel, which wakes the waiter its
task was blocked on, or from a deadline. -/
def interrupt (m : Monitor ι F) (w : ℕ) : Monitor ι F := { m with waiters := (m.waiters.wake w).2 }

def cancel (m : Monitor ι F) (t : Token) (b : Bool) : Monitor ι F :=
  { m with cancelled := Function.update m.cancelled t b }

@[simp] theorem wakeOne_parked (m : Monitor ι F) (i : ι) : (m.wakeOne i).parked = m.parked := rfl
@[simp] theorem wakeOne_cancelled (m : Monitor ι F) (i : ι) : (m.wakeOne i).cancelled = m.cancelled := rfl
@[simp] theorem wakeAll_parked (m : Monitor ι F) (i : ι) : (m.wakeAll i).parked = m.parked := rfl
@[simp] theorem wakeAll_cancelled (m : Monitor ι F) (i : ι) : (m.wakeAll i).cancelled = m.cancelled := rfl
@[simp] theorem unpark_cancelled (m : Monitor ι F) (p : Parked ι F) :
    (m.unpark p).cancelled = m.cancelled := rfl
@[simp] theorem park_cancelled (m : Monitor ι F) (t : Token) (i : ι) (c : Bool) (f : F) :
    (m.park t i c f).cancelled = m.cancelled := rfl
@[simp] theorem park_parked (m : Monitor ι F) (t : Token) (i : ι) (c : Bool) (f : F) :
    (m.park t i c f).parked = m.parked ++ [⟨t,m.made,i,c,f⟩] := rfl
@[simp] theorem unpark_parked (m : Monitor ι F) (p : Parked ι F) :
    (m.unpark p).parked = m.parked.filter fun q => q.task ≠ p.task := rfl

def doomed (m : Monitor ι F) (p : Parked ι F) : Bool := p.cancellable && m.cancelled p.task

def isUnwoken (m : Monitor ι F) (i : ι) (p : Parked ι F) : Bool :=
  decide (p.list = i) && !(m.waiters p.waiter).woken

def looksAgain (m : Monitor ι F) (i : ι) (p : Parked ι F) : Bool :=
  decide (p.list = i) && (m.waiters p.waiter).woken && !m.doomed p

def unwoken (m : Monitor ι F) (i : ι) : ℕ := m.parked.countP (m.isUnwoken i)
def lookers (m : Monitor ι F) (i : ι) : ℕ := m.parked.countP (m.looksAgain i)

def next (m : Monitor ι F) (i : ι) : Option ℕ := WaitList.next m.waiters (m.lists i)

/-- Every waiter that stands in a list belongs to one parked task, and a parked task whose
waiter no longer stands was woken. -/
structure Ok (m : Monitor ι F) : Prop where
  valid : ∀ i, WaitList.Valid m.waiters (m.lists i)
  disjoint : ∀ i j, i ≠ j → (m.lists i).waiters.Disjoint (m.lists j).waiters
  made : ∀ i, ∀ w ∈ (m.lists i).waiters, w < m.made
  tasks : (m.parked.map Parked.task).Nodup
  keys : (m.parked.map Parked.waiter).Nodup
  parkedMade : ∀ p ∈ m.parked, p.waiter < m.made
  place : ∀ p ∈ m.parked, WaitList.Stands m.waiters (m.lists p.list) p.waiter ∨
    (m.waiters p.waiter).woken = true
  standing : ∀ p ∈ m.parked, (m.waiters p.waiter).queued = .waiting →
    p.waiter ∈ (m.lists p.list).waiters
  home : ∀ p ∈ m.parked, ∀ i, p.waiter ∈ (m.lists i).waiters → p.list = i
  back : ∀ i w, WaitList.Stands m.waiters (m.lists i) w → ∃ p ∈ m.parked, p.list = i ∧ p.waiter = w

omit [DecidableEq ι] in
theorem ok_init : Ok ({} : Monitor ι F) := by
  constructor <;> simp [WaitList.Valid,WaitList.Stands]

variable {m : Monitor ι F} {i j : ι} {t : Token} {p : Parked ι F}

omit [DecidableEq ι] in
theorem find_some (h : m.find t = some p) : p ∈ m.parked ∧ p.task = t := by
  have hp := List.find?_some h
  exact ⟨List.mem_of_find?_eq_some h,by simpa using hp⟩

omit [DecidableEq ι] in
theorem find_none (h : m.find t = none) : ∀ p ∈ m.parked, p.task ≠ t := by
  intro p hp
  simpa using List.find?_eq_none.mp h p hp

omit [DecidableEq ι] in
theorem Ok.stands_of_unwoken (hm : m.Ok) (hp : p ∈ m.parked) (h : (m.waiters p.waiter).woken = false) :
    WaitList.Stands m.waiters (m.lists p.list) p.waiter := by
  rcases hm.place p hp with hs | hs
  · exact hs
  · rw [h] at hs; cases hs

theorem lists_subset {l : WaitList} (h : ∀ v ∈ l.waiters, v ∈ (m.lists i).waiters) (ws : Waiters)
    (j : ι) {v : ℕ} (hv : v ∈ ((m.setList i (ws,l)).lists j).waiters) : v ∈ (m.lists j).waiters := by
  by_cases hj : j = i
  · subst hj; exact h v (by simpa [setList] using hv)
  · simpa [setList,hj] using hv

/-- What an operation inside one list leaves of the invariant: all of it but where the
parked tasks of that list stand. -/
theorem Ok.setList_local (hm : m.Ok) {ws : Waiters} {l : WaitList}
    (h : WaitList.Local m.waiters (m.lists i) ws l) (ps : List (Parked ι F))
    (hps : ps.Sublist m.parked)
    (hleft : ∀ p ∈ ps, p.list = i → WaitList.Stands m.waiters (m.lists i) p.waiter →
      WaitList.Stands ws l p.waiter ∨ (ws p.waiter).woken = true)
    (hback : ∀ p ∈ m.parked, WaitList.Stands ws l p.waiter → p ∈ ps)
    (hother : ∀ p ∈ m.parked, p.list ≠ i → p ∈ ps) :
    ({ m.setList i (ws,l) with parked := ps } : Monitor ι F).Ok where
  valid j := by
    by_cases hj : j = i
    · subst hj; simpa [setList] using h.valid
    · simpa [setList,hj] using h.valid_other (hm.valid j) (hm.disjoint i j (Ne.symm hj))
  disjoint j k hjk v hv hw :=
    hm.disjoint j k hjk (lists_subset h.subset ws j hv) (lists_subset h.subset ws k hw)
  made j v hv := hm.made j v (lists_subset h.subset ws j hv)
  tasks := hm.tasks.sublist (hps.map _)
  keys := hm.keys.sublist (hps.map _)
  parkedMade p hp := hm.parkedMade p (hps.subset hp)
  place p hp := by
    rcases hm.place p (hps.subset hp) with hs | hs
    · by_cases hj : p.list = i
      · rw [hj] at hs
        simpa [setList,hj] using hleft p hp hj hs
      · left
        simpa [setList,hj] using (h.stands_other (hm.disjoint i p.list (Ne.symm hj))).mpr hs
    · exact Or.inr (h.woken _ hs)
  standing p hp hq := by
    have hp := hps.subset hp
    have hq : (ws p.waiter).queued = .waiting := hq
    by_cases hmem : p.waiter ∈ (m.lists i).waiters
    · have hj := hm.home p hp i hmem
      by_contra hn
      rw [h.out p.waiter hmem (by simpa [setList,hj] using hn)] at hq
      cases hq
    · rw [h.frame _ hmem] at hq
      have hin := hm.standing p hp hq
      have hj : p.list ≠ i := fun hj => hmem (hj ▸ hin)
      simpa [setList,hj] using hin
  home p hp j hv := hm.home p (hps.subset hp) j (lists_subset h.subset ws j hv)
  back j w hw := by
    by_cases hj : j = i
    · subst hj
      have hw : WaitList.Stands ws l w := by simpa [setList] using hw
      obtain ⟨p,hp,hpl,rfl⟩ := hm.back j w (h.stands w hw)
      exact ⟨p,hback p hp hw,hpl,rfl⟩
    · obtain ⟨p,hp,hpl,rfl⟩ := hm.back j w
        ((h.stands_other (hm.disjoint i j (Ne.symm hj))).mp (by simpa [setList,hj] using hw))
      exact ⟨p,hother p hp (hpl ▸ hj),hpl,rfl⟩

theorem wakeOne_ok (hm : m.Ok) (i : ι) : (m.wakeOne i).Ok := by
  have h := WaitList.wakeOne_spec (hm.valid i)
  exact hm.setList_local h.toLocal m.parked (List.Sublist.refl _) (fun p _ _ hs => h.left _ hs)
    (fun _ hp _ => hp) (fun _ hp _ => hp)

theorem wakeAll_ok (hm : m.Ok) (i : ι) : (m.wakeAll i).Ok := by
  have h := WaitList.wakeAll_spec (hm.valid i)
  exact hm.setList_local h.toLocal m.parked (List.Sublist.refl _)
    (fun p _ _ hs => Or.inr ((h.wokenIff _).mpr (Or.inr hs))) (fun _ hp _ => hp) (fun _ hp _ => hp)

theorem unpark_ok (hm : m.Ok) (hp : p ∈ m.parked) : (m.unpark p).Ok := by
  have h := WaitList.remove_local (hm.valid p.list) (hm.standing p hp)
  refine hm.setList_local h _ List.filter_sublist ?_ ?_ ?_
  · intro q hq _ hs
    have hne : q.waiter ≠ p.waiter := by
      intro he
      obtain rfl := Count.eq_of_key hm.keys (List.mem_filter.mp hq).1 hp he
      simp at hq
    exact Or.inl (WaitList.remove_stands.mpr ⟨hs,hne⟩)
  · intro q hq hs
    have hne := (WaitList.remove_stands.mp hs).2
    refine List.mem_filter.mpr ⟨hq,?_⟩
    simp only [decide_eq_true_eq]
    exact fun he => hne (by rw [Count.eq_of_key hm.tasks hq hp he])
  · intro q hq hl
    refine List.mem_filter.mpr ⟨hq,?_⟩
    simp only [decide_eq_true_eq]
    exact fun he => hl (by rw [Count.eq_of_key hm.tasks hq hp he])

omit [DecidableEq ι] in
theorem cancel_ok (hm : m.Ok) (t : Token) (b : Bool) : (m.cancel t b).Ok :=
  ⟨hm.valid,hm.disjoint,hm.made,hm.tasks,hm.keys,hm.parkedMade,hm.place,hm.standing,hm.home,hm.back⟩

omit [DecidableEq ι] in
theorem interrupt_ok (hm : m.Ok) (w : ℕ) : (m.interrupt w).Ok where
  valid i := ⟨(hm.valid i).1,by simpa [interrupt] using (hm.valid i).2⟩
  disjoint := hm.disjoint
  made := hm.made
  tasks := hm.tasks
  keys := hm.keys
  parkedMade := hm.parkedMade
  place p hp := by
    simp only [interrupt,WaitList.Stands,Waiters.wake_queued,Waiters.wake_woken,Bool.or_eq_true]
    rcases hm.place p hp with hs | hs
    · exact Or.inl hs
    · exact Or.inr (Or.inl hs)
  standing p hp hq := hm.standing p hp (by simpa [interrupt] using hq)
  home := hm.home
  back i w hw := hm.back i w (by simpa [interrupt,WaitList.Stands] using hw)

theorem park_ok (hm : m.Ok) (ht : ∀ p ∈ m.parked, p.task ≠ t) (i : ι) (c : Bool) (f : F) :
    (m.park t i c f).Ok := by
  have hfresh : ∀ j, m.made ∉ (m.lists j).waiters := fun j hj => Nat.lt_irrefl _ (hm.made j _ hj)
  have hws : ∀ v, v ≠ m.made → ((m.park t i c f).waiters v) = m.waiters v := by
    intro v hv
    simp only [park,setList]
    rw [WaitList.add_frame hv]
    simp [hv]
  have hlist : ∀ j v, v ∈ ((m.park t i c f).lists j).waiters ↔
      v ∈ (m.lists j).waiters ∨ j = i ∧ v = m.made := by
    intro j v
    by_cases hj : j = i
    · subst hj; simp [park,setList,WaitList.add]
    · simp [park,setList,hj]
  have hold : ∀ j, ∀ v ∈ (m.lists j).waiters, v ≠ m.made := fun j v hv he => hfresh j (he ▸ hv)
  have hself : ((m.park t i c f).waiters m.made).queued = .waiting := by simp [park,setList,WaitList.add]
  have hstands : ∀ j v, WaitList.Stands (m.park t i c f).waiters ((m.park t i c f).lists j) v ↔
      WaitList.Stands m.waiters (m.lists j) v ∨ j = i ∧ v = m.made := by
    intro j v
    simp only [WaitList.Stands,hlist]
    by_cases hv : v = m.made
    · subst hv
      simp [hself,hfresh]
    · rw [hws v hv]
      simp [hv]
  have hparked : ∀ p, p ∈ (m.park t i c f).parked ↔ p ∈ m.parked ∨ p = ⟨t,m.made,i,c,f⟩ := by
    intro p; simp [park,setList]
  constructor
  · intro j
    constructor
    · by_cases hj : j = i
      · subst hj
        simpa [park,setList,WaitList.add,List.nodup_append,(hm.valid j).1] using hold j
      · simpa [park,setList,hj] using (hm.valid j).1
    · intro v hv
      rcases (hlist j v).mp hv with hv | ⟨-,rfl⟩
      · rw [hws v (hold j v hv)]; exact (hm.valid j).2 v hv
      · simp [hself]
  · intro j k hjk v hv hw
    rcases (hlist j v).mp hv with hj | ⟨rfl,rfl⟩
    · rcases (hlist k v).mp hw with hk | ⟨rfl,rfl⟩
      · exact hm.disjoint j k hjk hj hk
      · exact hfresh j hj
    · rcases (hlist k _).mp hw with hk | ⟨rfl,-⟩
      · exact hfresh k hk
      · exact hjk rfl
  · intro j v hv
    rcases (hlist j v).mp hv with hv | ⟨-,rfl⟩
    · exact Nat.lt_succ_of_lt (hm.made j v hv)
    · exact Nat.lt_succ_self _
  · simpa [park,setList,List.nodup_append,hm.tasks] using ht
  · have hk : ∀ p ∈ m.parked, p.waiter ≠ m.made := fun p hp he => Nat.lt_irrefl _ (he ▸ hm.parkedMade p hp)
    simpa [park,setList,List.nodup_append,hm.keys] using hk
  · intro p hp
    rcases (hparked p).mp hp with hp | rfl
    · exact Nat.lt_succ_of_lt (hm.parkedMade p hp)
    · exact Nat.lt_succ_self _
  · intro p hp
    rw [hstands]
    rcases (hparked p).mp hp with hp | rfl
    · rcases hm.place p hp with hs | hs
      · exact Or.inl (Or.inl hs)
      · right
        rw [hws _ (Nat.ne_of_lt (hm.parkedMade p hp))]; exact hs
    · exact Or.inl (Or.inr ⟨rfl,rfl⟩)
  · intro p hp hq
    rw [hlist]
    rcases (hparked p).mp hp with hp | rfl
    · rw [hws _ (Nat.ne_of_lt (hm.parkedMade p hp))] at hq
      exact Or.inl (hm.standing p hp hq)
    · exact Or.inr ⟨rfl,rfl⟩
  · intro p hp j hv
    rcases (hparked p).mp hp with hp | rfl
    · rcases (hlist j _).mp hv with hv | ⟨-,he⟩
      · exact hm.home p hp j hv
      · exact absurd he (Nat.ne_of_lt (hm.parkedMade p hp))
    · rcases (hlist j _).mp hv with hv | ⟨hj,-⟩
      · exact absurd hv (hfresh j)
      · exact hj.symm
  · intro j w hw
    rcases (hstands j w).mp hw with hw | ⟨rfl,rfl⟩
    · obtain ⟨p,hp,hpl,hpw⟩ := hm.back j w hw
      exact ⟨p,(hparked p).mpr (Or.inl hp),hpl,hpw⟩
    · exact ⟨_,(hparked _).mpr (Or.inr rfl),rfl,rfl⟩

/-! ### How many wait unwoken, and how many look again -/

theorem isUnwoken_eq (m : Monitor ι F) (i : ι) (p : Parked ι F) :
    m.isUnwoken i p = (decide (p.list = i) && !(m.waiters p.waiter).woken) := rfl

theorem unpark_unwoken (hm : m.Ok) (hp : p ∈ m.parked) (i : ι) :
    (m.unpark p).unwoken i + (m.isUnwoken i p).toNat = m.unwoken i := by
  have h := Count.countP_drop (P := m.isUnwoken i) hp hm.tasks
  have hc : (m.unpark p).unwoken i = (m.parked.filter fun q => q.task ≠ p.task).countP (m.isUnwoken i) :=
    List.countP_congr fun q _ => by simp [unpark,setList,isUnwoken]
  rw [hc]; exact h

theorem unpark_lookers (hm : m.Ok) (hp : p ∈ m.parked) (i : ι) :
    (m.unpark p).lookers i + (m.looksAgain i p).toNat = m.lookers i := by
  have h := Count.countP_drop (P := m.looksAgain i) hp hm.tasks
  have hc : (m.unpark p).lookers i = (m.parked.filter fun q => q.task ≠ p.task).countP (m.looksAgain i) :=
    List.countP_congr fun q _ => by simp [unpark,setList,looksAgain,doomed]
  rw [hc]; exact h

theorem park_woken (hm : m.Ok) (c : Bool) (f : F) (hp : p ∈ m.parked) :
    ((m.park t i c f).waiters p.waiter).woken = (m.waiters p.waiter).woken := by
  have hne := Nat.ne_of_lt (hm.parkedMade p hp)
  simp [park,setList,hne]

theorem park_unwoken (hm : m.Ok) (i j : ι) (c : Bool) (f : F) :
    (m.park t i c f).unwoken j = m.unwoken j + (decide (i = j)).toNat := by
  have hc : m.parked.countP ((m.park t i c f).isUnwoken j) = m.unwoken j :=
    List.countP_congr fun q hq => by simp [isUnwoken,park_woken hm c f hq]
  have hw : ((m.park t i c f).waiters m.made).woken = false := by simp [park,setList]
  rw [unwoken,park_parked,List.countP_append,hc,List.countP_singleton,isUnwoken_eq,hw]
  by_cases hij : i = j <;> simp [hij]

theorem park_lookers (hm : m.Ok) (i j : ι) (c : Bool) (f : F) :
    (m.park t i c f).lookers j = m.lookers j := by
  have hc : m.parked.countP ((m.park t i c f).looksAgain j) = m.lookers j :=
    List.countP_congr fun q hq => by
      simp [looksAgain,doomed,park_woken hm c f hq]
  have hw : ((m.park t i c f).waiters m.made).woken = false := by simp [park,setList]
  rw [lookers,park_parked,List.countP_append,hc,List.countP_singleton]
  simp [looksAgain,hw]

omit [DecidableEq ι] in
theorem Ok.next_parked (hm : m.Ok) {w : ℕ} (h : m.next i = some w) :
    ∃ p ∈ m.parked, p.list = i ∧ p.waiter = w ∧ (m.waiters p.waiter).woken = false := by
  obtain ⟨hs,hw⟩ := WaitList.next_some h
  obtain ⟨p,hp,hl,rfl⟩ := hm.back i w hs
  exact ⟨p,hp,hl,rfl,hw⟩

theorem next_none_unwoken (hm : m.Ok) (h : m.next i = none) : m.unwoken i = 0 := by
  refine List.countP_eq_zero.mpr fun p hp => ?_
  simp only [isUnwoken,Bool.and_eq_true,decide_eq_true_eq,Bool.not_eq_true']
  rintro ⟨rfl,hw⟩
  rw [WaitList.next_none h (hm.stands_of_unwoken hp hw)] at hw
  cases hw

/-- Waking one waiter moves its task from the unwoken to those that look again, unless it
was cancelled already. -/
theorem woken_change (m' : Monitor ι F) (hm : m.Ok) (hps : m'.parked = m.parked)
    (hcs : m'.cancelled = m.cancelled) (hp : p ∈ m.parked) (hw : (m.waiters p.waiter).woken = false)
    (hwok : ∀ v, (m'.waiters v).woken = true ↔ (m.waiters v).woken = true ∨ v = p.waiter) (j : ι) :
    m'.unwoken j + (decide (p.list = j)).toNat = m.unwoken j ∧
    m'.lookers j = m.lookers j + (decide (p.list = j) && !m.doomed p).toNat := by
  have hself : (m'.waiters p.waiter).woken = true := (hwok _).mpr (Or.inr rfl)
  have hkeep : ∀ q : Parked ι F, q.waiter ≠ p.waiter → (m'.waiters q.waiter).woken = (m.waiters q.waiter).woken :=
    fun q hq => Bool.eq_iff_iff.mpr ((hwok q.waiter).trans (or_iff_left hq))
  have hd : ∀ q, m'.doomed q = m.doomed q := fun q => by simp [doomed,hcs]
  constructor
  · have h := Count.countP_change (P := m'.isUnwoken j) (Q := m.isUnwoken j) hp hm.keys
      fun q _ hq => by simp [isUnwoken,hkeep q hq]
    simpa [unwoken,hps,isUnwoken,hw,hself] using h
  · have h := Count.countP_change (P := m'.looksAgain j) (Q := m.looksAgain j) hp hm.keys
      fun q _ hq => by simp [looksAgain,hkeep q hq,hd]
    simpa [lookers,hps,looksAgain,hw,hself,hd] using h

theorem wakeOne_none (hm : m.Ok) (h : m.next i = none) (j : ι) :
    (m.wakeOne i).unwoken j = m.unwoken j ∧ (m.wakeOne i).lookers j = m.lookers j := by
  have hs := WaitList.wakeOne_spec (hm.valid i)
  have hw : ∀ v, ((m.wakeOne i).waiters v).woken = (m.waiters v).woken := fun v =>
    Bool.eq_iff_iff.mpr ((hs.wokenIff v).trans (or_iff_left (by rw [← next,h]; simp)))
  constructor
  · exact List.countP_congr fun q _ => by simp [isUnwoken,hw]
  · exact List.countP_congr fun q _ => by simp [looksAgain,doomed,hw]

theorem wakeOne_some (hm : m.Ok) (hp : p ∈ m.parked) (h : m.next i = some p.waiter) (j : ι) :
    (m.wakeOne i).unwoken j + (decide (p.list = j)).toNat = m.unwoken j ∧
    (m.wakeOne i).lookers j = m.lookers j + (decide (p.list = j) && !m.doomed p).toNat := by
  have hs := WaitList.wakeOne_spec (hm.valid i)
  have hw : ∀ v, ((m.wakeOne i).waiters v).woken = true ↔
      (m.waiters v).woken = true ∨ v = p.waiter := by
    intro v
    refine (hs.wokenIff v).trans (or_congr_right ?_)
    rw [← next,h,Option.some.injEq,eq_comm]
  exact woken_change (m.wakeOne i) hm rfl rfl hp (WaitList.next_some h).2 hw j

/-- Waking one task of a list moves nobody who waits on another. -/
theorem wakeOne_other (hm : m.Ok) (hij : i ≠ j) :
    (m.wakeOne i).unwoken j = m.unwoken j ∧ (m.wakeOne i).lookers j = m.lookers j := by
  cases h : m.next i with
  | none => exact wakeOne_none hm h j
  | some w =>
    obtain ⟨p,hp,hpl,rfl,-⟩ := hm.next_parked h
    have hj : p.list ≠ j := fun hj => hij (hpl.symm.trans hj)
    simpa [hj] using wakeOne_some hm hp h j

/-- With one task on its way for each of `n` things, a wake provides for one more, unless it
goes to a task that is cancelled while no task is to spare and others wait. -/
theorem wakeOne_supply (hm : m.Ok) {n : ℕ} (hc : 0 < m.unwoken i → n ≤ m.lookers i)
    (hw : ¬(m.lookers i ≤ n ∧ 1 < m.unwoken i ∧
      ∃ p ∈ m.parked, m.next i = some p.waiter ∧ m.doomed p = true)) :
    0 < (m.wakeOne i).unwoken i → n + 1 ≤ (m.wakeOne i).lookers i := by
  cases h : m.next i with
  | none =>
    rw [(wakeOne_none hm h i).1,next_none_unwoken hm h]
    exact fun h0 => absurd h0 (Nat.lt_irrefl 0)
  | some w =>
    obtain ⟨p,hp,hpl,rfl,-⟩ := hm.next_parked h
    obtain ⟨hu,hl⟩ := wakeOne_some hm hp h i
    rw [hpl] at hu hl
    simp only [decide_true,Bool.toNat_true,Bool.true_and] at hu hl
    intro hpos
    have hn := hc (by omega)
    rw [hl]
    cases hd : m.doomed p with
    | false => simp; omega
    | true =>
      have hlt : n < m.lookers i := by
        by_contra hle
        exact hw ⟨by omega,by omega,p,hp,h,hd⟩
      simp; omega

theorem wakeAll_unwoken (hm : m.Ok) (i : ι) : (m.wakeAll i).unwoken i = 0 := by
  have hs := WaitList.wakeAll_spec (hm.valid i)
  refine List.countP_eq_zero.mpr fun p hp => ?_
  simp only [isUnwoken,Bool.and_eq_true,decide_eq_true_eq,Bool.not_eq_true']
  rintro ⟨rfl,hw⟩
  have : ((m.wakeAll p.list).waiters p.waiter).woken = true := by
    refine (hs.wokenIff _).mpr ?_
    rcases hm.place p hp with h | h
    · exact Or.inr h
    · exact Or.inl h
  rw [this] at hw; cases hw

/-- Wakes only ever lower how many wait unwoken and raise how many look again. -/
theorem woken_mono (m m' : Monitor ι F) (hps : m'.parked = m.parked) (hcs : m'.cancelled = m.cancelled)
    (hw : ∀ v, (m.waiters v).woken = true → (m'.waiters v).woken = true) (j : ι) :
    m'.unwoken j ≤ m.unwoken j ∧ m.lookers j ≤ m'.lookers j := by
  have hd : ∀ q, m'.doomed q = m.doomed q := fun q => by simp [doomed,hcs]
  constructor
  · rw [unwoken,hps]
    refine List.countP_mono_left fun q _ hq => ?_
    simp only [isUnwoken,Bool.and_eq_true,Bool.not_eq_true'] at hq ⊢
    refine ⟨hq.1,Bool.eq_false_iff.mpr fun hv => ?_⟩
    rw [hw _ hv] at hq
    exact absurd hq.2 (by simp)
  · rw [lookers,lookers,hps]
    refine List.countP_mono_left fun q _ hq => ?_
    simp only [looksAgain,Bool.and_eq_true,hd] at hq ⊢
    exact ⟨⟨hq.1.1,hw _ hq.1.2⟩,hq.2⟩

theorem wakeOne_mono (hm : m.Ok) (i j : ι) :
    (m.wakeOne i).unwoken j ≤ m.unwoken j ∧ m.lookers j ≤ (m.wakeOne i).lookers j :=
  woken_mono m (m.wakeOne i) rfl rfl (WaitList.wakeOne_spec (hm.valid i)).toLocal.woken j

theorem wakeAll_mono (hm : m.Ok) (i j : ι) :
    (m.wakeAll i).unwoken j ≤ m.unwoken j ∧ m.lookers j ≤ (m.wakeAll i).lookers j :=
  woken_mono m (m.wakeAll i) rfl rfl (WaitList.wakeAll_spec (hm.valid i)).toLocal.woken j

theorem wakeAll_other (hm : m.Ok) (hij : i ≠ j) :
    (m.wakeAll i).unwoken j = m.unwoken j ∧ (m.wakeAll i).lookers j = m.lookers j ∧
    (m.wakeAll i).next j = m.next j := by
  have hs := WaitList.wakeAll_spec (hm.valid i)
  have hw : ∀ v, ¬WaitList.Stands m.waiters (m.lists i) v →
      ((m.wakeAll i).waiters v).woken = (m.waiters v).woken := fun v hv =>
    Bool.eq_iff_iff.mpr ((hs.wokenIff v).trans (or_iff_left hv))
  have hp : ∀ q ∈ m.parked, q.list = j →
      ((m.wakeAll i).waiters q.waiter).woken = (m.waiters q.waiter).woken := fun q hq hj =>
    hw _ fun h => hij ((hm.home q hq i h.1).symm.trans hj)
  have hc (P Q : Parked ι F → Bool) (hPQ : ∀ q ∈ m.parked, q.list = j → P q = Q q)
      (hP : ∀ q, P q = true → q.list = j) (hQ : ∀ q, Q q = true → q.list = j) :
      m.parked.countP P = m.parked.countP Q := by
    refine List.countP_congr fun q hq => ?_
    constructor
    · exact fun h => hPQ q hq (hP q h) ▸ h
    · exact fun h => (hPQ q hq (hQ q h)).symm ▸ h
  have hlist : ∀ (n : Monitor ι F) q, n.isUnwoken j q = true → q.list = j := fun n q h => by
    simp only [isUnwoken,Bool.and_eq_true,decide_eq_true_eq] at h; exact h.1
  have hlook : ∀ (n : Monitor ι F) q, n.looksAgain j q = true → q.list = j := fun n q h => by
    simp only [looksAgain,Bool.and_eq_true,decide_eq_true_eq] at h; exact h.1.1
  refine ⟨hc _ _ ?_ (hlist _) (hlist _),hc _ _ ?_ (hlook _) (hlook _),?_⟩
  · intro q hq hj; simp [isUnwoken,hp q hq hj]
  · intro q hq hj; simp [looksAgain,doomed,hp q hq hj]
  · have hl : (m.wakeAll i).lists j = m.lists j := by simp [wakeAll,setList,hij.symm]
    have hf : ∀ v ∈ (m.lists j).waiters, (m.wakeAll i).waiters v = m.waiters v := fun v hv =>
      hs.toLocal.frame v fun hi => hm.disjoint i j hij hi hv
    exact WaitList.next_congr (by rw [hl]) hf

theorem interrupt_mono (m : Monitor ι F) (w : ℕ) (j : ι) :
    (m.interrupt w).unwoken j ≤ m.unwoken j ∧ m.lookers j ≤ (m.interrupt w).lookers j :=
  woken_mono m (m.interrupt w) rfl rfl (fun v hv => by simp [interrupt,Waiters.wake_woken,hv]) j

omit [DecidableEq ι] in
theorem cancel_doomed_of_ne (h : p.task ≠ t) (b : Bool) : (m.cancel t b).doomed p = m.doomed p := by
  simp [cancel,doomed,h]

@[simp] theorem cancel_unwoken (m : Monitor ι F) (t : Token) (b : Bool) (i : ι) :
    (m.cancel t b).unwoken i = m.unwoken i := rfl

/-- A cancel changes only whether the cancelled task looks again. -/
theorem cancel_lookers_of_absent (h : ∀ p ∈ m.parked, p.task ≠ t) (b : Bool) (i : ι) :
    (m.cancel t b).lookers i = m.lookers i :=
  List.countP_congr fun q hq => by
    rw [looksAgain,looksAgain,cancel_doomed_of_ne (h q hq)]; rfl

theorem cancel_lookers (hm : m.Ok) (hp : p ∈ m.parked) (b : Bool) (i : ι) :
    (m.cancel p.task b).lookers i + (m.looksAgain i p).toNat =
      m.lookers i + ((m.cancel p.task b).looksAgain i p).toNat := by
  refine Count.countP_change hp hm.tasks fun q _ hq => ?_
  rw [looksAgain,looksAgain,cancel_doomed_of_ne hq]; rfl

end Monitor
end Ens.Tasks
