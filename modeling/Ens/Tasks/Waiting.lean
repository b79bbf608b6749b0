import Mathlib.Data.List.Basic
import Mathlib.Data.List.Nodup
import Mathlib.Data.List.Find
import Mathlib.Data.Int.Notation
import Mathlib.Logic.Function.Basic

/-! # Waiters and the lists they stand in

A waiter stands in a list for one wait. Waking it once is all it takes, so a wake that
lost the race does nothing. A waiter whose wait ended some other way stays where it
stands, abandoned, until it reaches the front or the list is swept.
-/
set_option linter.all false
namespace Ens.Tasks

/-- Where a waiter stands in its wait list. -/
inductive Queued
  | no
  | waiting
  | abandoned
  deriving DecidableEq, Repr

structure Waiter where
  woken : Bool := false
  queued : Queued := .no
  deriving DecidableEq, Repr

abbrev Waiters := ℕ → Waiter

namespace Waiters

def wake (ws : Waiters) (w : ℕ) : Bool × Waiters :=
  if (ws w).woken then (false,ws)
  else (true,Function.update ws w { ws w with woken := true })

def setQueued (ws : Waiters) (w : ℕ) (q : Queued) : Waiters :=
  Function.update ws w { ws w with queued := q }

@[simp] theorem setQueued_woken (ws : Waiters) (w v : ℕ) (q : Queued) :
    (ws.setQueued w q v).woken = (ws v).woken := by
  by_cases h : v = w
  · subst h; simp [setQueued]
  · simp [setQueued,h]

@[simp] theorem setQueued_queued_self (ws : Waiters) (w : ℕ) (q : Queued) :
    (ws.setQueued w q w).queued = q := by simp [setQueued]

theorem setQueued_of_ne (ws : Waiters) {w v : ℕ} (q : Queued) (h : v ≠ w) :
    ws.setQueued w q v = ws v := by simp [setQueued,h]

@[simp] theorem wake_queued (ws : Waiters) (w v : ℕ) :
    ((ws.wake w).2 v).queued = (ws v).queued := by
  by_cases hw : (ws w).woken = true
  · simp [wake,hw]
  · by_cases h : v = w
    · subst h; simp [wake,hw]
    · simp [wake,hw,h]

theorem wake_woken (ws : Waiters) (w v : ℕ) :
    ((ws.wake w).2 v).woken = ((ws v).woken || decide (v = w)) := by
  by_cases hw : (ws w).woken = true
  · by_cases h : v = w
    · subst h; simp [wake,hw]
    · simp [wake,hw,h]
  · by_cases h : v = w
    · subst h; simp [wake,hw]
    · simp [wake,hw,h]

@[simp] theorem wake_fst (ws : Waiters) (w : ℕ) : (ws.wake w).1 = !(ws w).woken := by
  by_cases hw : (ws w).woken = true <;> simp [wake,hw]

end Waiters

structure WaitList where
  waiters : List ℕ := []
  abandoned : ℤ := 0

namespace WaitList

def add (ws : Waiters) (l : WaitList) (w : ℕ) : Waiters × WaitList :=
  (ws.setQueued w .waiting,{ l with waiters := l.waiters ++ [w] })

def sweep (ws : Waiters) (l : WaitList) : Waiters × WaitList :=
  (fun w => if w ∈ l.waiters ∧ (ws w).queued ≠ .waiting then { ws w with queued := .no } else ws w,
    { waiters := l.waiters.filter fun w => (ws w).queued = .waiting, abandoned := 0 })

def remove (ws : Waiters) (l : WaitList) (w : ℕ) : Waiters × WaitList :=
  if (ws w).queued ≠ .waiting then (ws,l)
  else
    let ws := ws.setQueued w .abandoned
    let l := { l with abandoned := l.abandoned + 1 }
    if l.abandoned * 2 > (l.waiters.length : ℤ) then sweep ws l else (ws,l)

def leave (ws : Waiters) (l : WaitList) (w : ℕ) : Bool × Waiters × WaitList :=
  if (ws w).queued = .abandoned then
    (false,ws.setQueued w .no,{ l with abandoned := l.abandoned - 1 })
  else (true,ws.setQueued w .no,l)

def wakeOneLoop (ws : Waiters) (abandoned : ℤ) : List ℕ → Waiters × WaitList
  | [] => (ws,⟨[],abandoned⟩)
  | w :: rest =>
    let (waited,ws,l) := leave ws ⟨rest,abandoned⟩ w
    let (woke,ws') := ws.wake w
    if waited then
      if woke then (ws',l) else wakeOneLoop ws' l.abandoned rest
    else wakeOneLoop ws l.abandoned rest

def wakeOne (ws : Waiters) (l : WaitList) : Waiters × WaitList :=
  wakeOneLoop ws l.abandoned l.waiters

def wakeAllLoop (ws : Waiters) (l : WaitList) : List ℕ → Waiters × WaitList
  | [] => (ws,l)
  | w :: rest =>
    let (waited,ws,l) := leave ws l w
    if waited then wakeAllLoop (ws.wake w).2 l rest else wakeAllLoop ws l rest

def wakeAll (ws : Waiters) (l : WaitList) : Waiters × WaitList :=
  wakeAllLoop ws { l with waiters := [] } l.waiters

def next (ws : Waiters) (l : WaitList) : Option ℕ :=
  l.waiters.find? fun w => (ws w).queued = .waiting ∧ (ws w).woken = false

/-- A waiter that is in the list and whose wait has not ended another way. -/
def Stands (ws : Waiters) (l : WaitList) (w : ℕ) : Prop :=
  w ∈ l.waiters ∧ (ws w).queued = .waiting

/-- No waiter stands twice, and one that is in the list is recorded as being in it. -/
def Valid (ws : Waiters) (l : WaitList) : Prop :=
  l.waiters.Nodup ∧ ∀ w ∈ l.waiters, (ws w).queued ≠ .no

theorem valid_empty (ws : Waiters) : Valid ws {} := by simp [Valid]

variable {ws : Waiters} {l : WaitList} {w v : ℕ}

theorem next_some (h : next ws l = some w) : Stands ws l w ∧ (ws w).woken = false := by
  have hp := List.find?_some h
  simp only [decide_eq_true_eq] at hp
  exact ⟨⟨List.mem_of_find?_eq_some h,hp.1⟩,hp.2⟩

theorem next_none (h : next ws l = none) (hv : Stands ws l v) : (ws v).woken = true := by
  have hn := List.find?_eq_none.mp h v hv.1
  simpa [hv.2] using hn

/-- Whom `wakeOne` wakes depends on the waiters of the list alone. -/
theorem next_congr {ws' : Waiters} {m : WaitList} (hm : m.waiters = l.waiters)
    (h : ∀ v ∈ l.waiters, ws' v = ws v) : next ws' m = next ws l := by
  rw [next,next,hm]
  exact List.find?_congr fun v hv => by rw [h v hv]

/-! ### What each operation does to the waiters that stand -/

/-- What an operation on `l` may do: it adds no waiter, wakes none outside `l`, and leaves
the record of every waiter outside `l` as it was. -/
structure Local (ws : Waiters) (l : WaitList) (ws' : Waiters) (l' : WaitList) : Prop where
  valid : Valid ws' l'
  subset : ∀ v ∈ l'.waiters, v ∈ l.waiters
  stands : ∀ v, Stands ws' l' v → Stands ws l v
  woken : ∀ v, (ws v).woken = true → (ws' v).woken = true
  frame : ∀ v, v ∉ l.waiters → ws' v = ws v
  out : ∀ v ∈ l.waiters, v ∉ l'.waiters → (ws' v).queued = .no

theorem Local.refl (hl : Valid ws l) : Local ws l ws l :=
  ⟨hl,fun _ h => h,fun _ h => h,fun _ h => h,fun _ _ => rfl,fun _ h hn => absurd h hn⟩

theorem Local.trans {ws₁ ws₂ : Waiters} {l₁ l₂ : WaitList} (h : Local ws l ws₁ l₁)
    (g : Local ws₁ l₁ ws₂ l₂) : Local ws l ws₂ l₂ where
  valid := g.valid
  subset v hv := h.subset v (g.subset v hv)
  stands v hv := h.stands v (g.stands v hv)
  woken v hv := g.woken v (h.woken v hv)
  frame v hv := (g.frame v fun hm => hv (h.subset v hm)).trans (h.frame v hv)
  out v hv hn := by
    by_cases h₁ : v ∈ l₁.waiters
    · exact g.out v h₁ hn
    · rw [g.frame v h₁]; exact h.out v hv h₁

theorem add_valid (hl : Valid ws l) (hw : w ∉ l.waiters) :
    Valid (add ws l w).1 (add ws l w).2 := by
  constructor
  · have hd : ∀ a ∈ l.waiters, a ≠ w := fun a ha he => hw (he ▸ ha)
    simpa [add,List.nodup_append,hl.1] using hd
  · intro v hv
    simp only [add,List.mem_append,List.mem_singleton] at hv ⊢
    by_cases h : v = w
    · subst h; simp
    · rw [Waiters.setQueued_of_ne ws _ h]
      exact hl.2 v (hv.resolve_right h)

theorem add_stands : Stands (add ws l w).1 (add ws l w).2 v ↔ Stands ws l v ∨ v = w := by
  simp only [Stands,add,List.mem_append,List.mem_singleton]
  by_cases h : v = w
  · subst h; simp
  · rw [Waiters.setQueued_of_ne ws _ h]
    simp [h]

theorem add_frame (h : v ≠ w) : (add ws l w).1 v = ws v := Waiters.setQueued_of_ne ws _ h

@[simp] theorem add_woken : ((add ws l w).1 v).woken = (ws v).woken := by simp [add]

theorem sweep_stands : Stands (sweep ws l).1 (sweep ws l).2 v ↔ Stands ws l v := by
  simp only [Stands,sweep,List.mem_filter,decide_eq_true_eq]
  constructor
  · exact fun h => h.1
  · intro h
    exact ⟨h,by simp [h.2]⟩

@[simp] theorem sweep_woken : ((sweep ws l).1 v).woken = (ws v).woken := by
  simp only [sweep]; split <;> rfl

theorem sweep_local (hl : Valid ws l) : Local ws l (sweep ws l).1 (sweep ws l).2 where
  valid := by
    refine ⟨hl.1.filter _,?_⟩
    intro v hv
    simp only [sweep,List.mem_filter,decide_eq_true_eq] at hv ⊢
    simp [hv.2]
  subset v hv := (List.mem_filter.mp hv).1
  stands v hv := sweep_stands.mp hv
  woken v hv := by simpa using hv
  frame v hv := by simp [sweep,hv]
  out v hv hn := by
    have hq : (ws v).queued ≠ .waiting := fun h => hn (List.mem_filter.mpr ⟨hv,by simp [h]⟩)
    simp [sweep,hv,hq]

/-- The record of one waiter of the list changes, and the list keeps its waiters. -/
theorem setQueued_local (hl : Valid ws l) (hw : w ∈ l.waiters) (n : ℤ) :
    Local ws l (ws.setQueued w .abandoned) { l with abandoned := n } where
  valid := by
    refine ⟨hl.1,?_⟩
    intro v hv
    by_cases h : v = w
    · subst h; simp
    · rw [Waiters.setQueued_of_ne ws _ h]; exact hl.2 v hv
  subset _ hv := hv
  stands v hv := by
    by_cases h : v = w
    · subst h; simp [Stands] at hv
    · rwa [Stands,Waiters.setQueued_of_ne ws _ h] at hv
  woken v hv := by simpa using hv
  frame v hv := Waiters.setQueued_of_ne ws _ fun h => hv (h ▸ hw)
  out v hv hn := absurd hv hn

theorem remove_local (hl : Valid ws l) (hw : (ws w).queued = .waiting → w ∈ l.waiters) :
    Local ws l (remove ws l w).1 (remove ws l w).2 := by
  unfold remove
  split
  · exact Local.refl hl
  · rename_i hq
    have hset := setQueued_local hl (hw (not_not.mp hq)) (l.abandoned + 1)
    dsimp only
    split
    · exact hset.trans (sweep_local hset.valid)
    · exact hset

theorem remove_stands :
    Stands (remove ws l w).1 (remove ws l w).2 v ↔ Stands ws l v ∧ v ≠ w := by
  have hset (n : ℤ) : Stands (ws.setQueued w .abandoned) { l with abandoned := n } v ↔
      Stands ws l v ∧ v ≠ w := by
    by_cases h : v = w
    · subst h; simp [Stands]
    · simp [Stands,Waiters.setQueued_of_ne ws _ h,h]
  unfold remove
  split
  · rename_i hq
    constructor
    · intro h
      exact ⟨h,fun hvw => hq (hvw ▸ h.2)⟩
    · exact fun h => h.1
  · dsimp only
    split
    · exact sweep_stands.trans (hset _)
    · exact hset _

@[simp] theorem remove_woken : ((remove ws l w).1 v).woken = (ws v).woken := by
  unfold remove
  split
  · rfl
  · dsimp only
    split <;> simp

/-! ### Waking -/

theorem pop_local {rest : List ℕ} {ws' : Waiters} {a b : ℤ} (hl : Valid ws ⟨w :: rest,a⟩)
    (hn : ∀ v, v ≠ w → ws' v = ws v) (hw : (ws w).woken = true → (ws' w).woken = true)
    (hq : (ws' w).queued = .no) : Local ws ⟨w :: rest,a⟩ ws' ⟨rest,b⟩ := by
  obtain ⟨hwr,hnd⟩ := List.nodup_cons.mp hl.1
  have hne : ∀ v ∈ rest, v ≠ w := fun v hv h => hwr (h ▸ hv)
  refine ⟨⟨hnd,?_⟩,fun v hv => List.mem_cons_of_mem _ hv,?_,?_,?_,?_⟩
  · intro v hv
    rw [hn v (hne v hv)]
    exact hl.2 v (List.mem_cons_of_mem _ hv)
  · intro v hv
    have hq := hv.2
    rw [hn v (hne v hv.1)] at hq
    exact ⟨List.mem_cons_of_mem _ hv.1,hq⟩
  · intro v hv
    by_cases h : v = w
    · subst h; exact hw hv
    · rwa [hn v h]
  · intro v hv
    exact hn v fun h => hv (h ▸ List.mem_cons_self)
  · intro v hv hr
    obtain rfl := (List.mem_cons.mp hv).resolve_right hr
    exact hq

theorem next_cons_of_not {rest : List ℕ} {ws' : Waiters} {a b : ℤ}
    (hl : Valid ws ⟨w :: rest,a⟩) (hn : ∀ v, v ≠ w → ws' v = ws v)
    (hw : ¬((ws w).queued = .waiting ∧ (ws w).woken = false)) :
    next ws ⟨w :: rest,a⟩ = next ws' ⟨rest,b⟩ := by
  have hne : ∀ v ∈ rest, v ≠ w := fun v hv h => (List.nodup_cons.mp hl.1).1 (h ▸ hv)
  have hskip : next ws ⟨w :: rest,a⟩ = next ws ⟨rest,b⟩ := by
    simp only [next,List.find?_cons,hw,decide_false]
  rw [hskip,next_congr rfl fun v hv => hn v (hne v hv)]

/-- What `wakeOne` does: it wakes the waiter `next` names and no other, and every waiter
that no longer stands was woken. -/
structure WokeOne (ws : Waiters) (l : WaitList) (ws' : Waiters) (l' : WaitList) : Prop
    extends Local ws l ws' l' where
  wokenIff : ∀ v, (ws' v).woken = true ↔ (ws v).woken = true ∨ next ws l = some v
  left : ∀ v, Stands ws l v → Stands ws' l' v ∨ (ws' v).woken = true

/-- A front waiter that `wakeOne` passes over changes nothing about whom it wakes. -/
theorem WokeOne.skip {rest : List ℕ} {ws₁ ws₂ : Waiters} {a b : ℤ} {l' : WaitList}
    (hl : Valid ws ⟨w :: rest,a⟩) (hn : ∀ v, v ≠ w → ws₁ v = ws v)
    (hwk : (ws₁ w).woken = (ws w).woken) (hq : (ws₁ w).queued = .no)
    (hw : ¬((ws w).queued = .waiting ∧ (ws w).woken = false))
    (h : WokeOne ws₁ ⟨rest,b⟩ ws₂ l') : WokeOne ws ⟨w :: rest,a⟩ ws₂ l' where
  toLocal := (pop_local hl hn (fun h => hwk.trans h) hq).trans h.toLocal
  wokenIff v := by
    rw [h.wokenIff,next_cons_of_not (b := b) hl hn hw]
    by_cases hv : v = w
    · subst hv; rw [hwk]
    · rw [hn v hv]
  left v hv := by
    by_cases hvw : v = w
    · subst hvw
      right
      have hold : (ws v).woken = true := by
        by_contra hf
        exact hw ⟨hv.2,by simpa using hf⟩
      exact h.toLocal.woken v (hwk.trans hold)
    · refine h.left v ⟨?_,?_⟩
      · exact (List.mem_cons.mp hv.1).resolve_left hvw
      · rw [hn v hvw]; exact hv.2

theorem wakeOneLoop_spec (ws : Waiters) (a : ℤ) (xs : List ℕ) (hl : Valid ws ⟨xs,a⟩) :
    WokeOne ws ⟨xs,a⟩ (wakeOneLoop ws a xs).1 (wakeOneLoop ws a xs).2 := by
  induction xs generalizing ws a with
  | nil =>
    refine ⟨Local.refl hl,?_,?_⟩
    · intro v; simp [wakeOneLoop,next]
    · intro v hv; exact Or.inl hv
  | cons w rest ih =>
    have hset : ∀ q v, v ≠ w → ws.setQueued w q v = ws v := fun q v h => Waiters.setQueued_of_ne ws q h
    have hwake : ∀ v, v ≠ w → ((ws.setQueued w .no).wake w).2 v = ws v := by
      intro v h
      simp [Waiters.wake]
      split <;> simp [h,hset]
    rw [wakeOneLoop,leave]
    by_cases hq : (ws w).queued = .abandoned
    · simp only [hq,↓reduceIte,Bool.false_eq_true]
      exact WokeOne.skip hl (hset .no) (by simp) (by simp) (by simp [hq])
        (ih _ _ (pop_local hl (hset .no) (by simp) (by simp)).valid)
    · have hwait : (ws w).queued = .waiting := by
        have hno := hl.2 w List.mem_cons_self
        cases h : (ws w).queued <;> simp_all
      simp only [hq,↓reduceIte,Waiters.wake_fst,Waiters.setQueued_woken]
      by_cases hk : (ws w).woken = true
      · simp only [hk,Bool.not_true,Bool.false_eq_true,↓reduceIte]
        refine WokeOne.skip hl hwake (by rw [Waiters.wake_woken]; simp [hk]) (by simp) (by simp [hk])
          (ih _ _ ?_)
        exact (pop_local hl hwake (by intro _; rw [Waiters.wake_woken]; simp) (by simp)).valid
      · have hf : (ws w).woken = false := by simpa using hk
        simp only [hf,Bool.not_false,↓reduceIte]
        have hnext : next ws ⟨w :: rest,a⟩ = some w := by simp [next,hwait,hf]
        refine ⟨pop_local hl hwake (by simp [hf]) (by simp),?_,?_⟩
        · intro v
          rw [Waiters.wake_woken,hnext,Waiters.setQueued_woken]
          simp only [Bool.or_eq_true,decide_eq_true_eq,Option.some.injEq]
          exact or_congr_right eq_comm
        · intro v hv
          by_cases hvw : v = w
          · subst hvw
            right
            rw [Waiters.wake_woken]; simp
          · left
            refine ⟨(List.mem_cons.mp hv.1).resolve_left hvw,?_⟩
            rw [hwake v hvw]; exact hv.2

theorem wakeOne_spec (hl : Valid ws l) :
    WokeOne ws l (wakeOne ws l).1 (wakeOne ws l).2 :=
  wakeOneLoop_spec ws l.abandoned l.waiters hl

structure WokeAll (ws : Waiters) (l : WaitList) (ws' : Waiters) (l' : WaitList) : Prop
    extends Local ws l ws' l' where
  empty : l'.waiters = []
  wokenIff : ∀ v, (ws' v).woken = true ↔ (ws v).woken = true ∨ Stands ws l v

theorem wakeAllLoop_spec (ws : Waiters) (a b : ℤ) (xs : List ℕ) (hl : Valid ws ⟨xs,a⟩) :
    WokeAll ws ⟨xs,a⟩ (wakeAllLoop ws ⟨[],b⟩ xs).1 (wakeAllLoop ws ⟨[],b⟩ xs).2 := by
  induction xs generalizing ws a b with
  | nil =>
    refine ⟨⟨⟨List.nodup_nil,by simp [wakeAllLoop]⟩,by simp [wakeAllLoop],by simp [wakeAllLoop,Stands],
      fun _ h => h,fun _ _ => rfl,by simp⟩,rfl,?_⟩
    intro v; simp [wakeAllLoop,Stands]
  | cons w rest ih =>
    have hset : ∀ q v, v ≠ w → ws.setQueued w q v = ws v := fun q v h => Waiters.setQueued_of_ne ws q h
    have hwr : w ∉ rest := (List.nodup_cons.mp hl.1).1
    have hstands (ws₁ : Waiters) (hn : ∀ v, v ≠ w → ws₁ v = ws v) (v : ℕ) :
        Stands ws ⟨w :: rest,a⟩ v ↔ Stands ws₁ ⟨rest,a⟩ v ∨ v = w ∧ (ws w).queued = .waiting := by
      by_cases hv : v = w
      · subst hv; simp [Stands,hwr]
      · simp [Stands,hv,hn v hv]
    rw [wakeAllLoop,leave]
    by_cases hq : (ws w).queued = .abandoned
    · simp only [hq,↓reduceIte,Bool.false_eq_true]
      have hp := pop_local (b := a) hl (hset .no) (by simp) (by simp)
      have h := ih _ a (b - 1) hp.valid
      refine ⟨hp.trans h.toLocal,h.empty,?_⟩
      intro v
      rw [h.wokenIff,hstands _ (hset .no)]
      simp [hq]
    · have hwait : (ws w).queued = .waiting := by
        have hno := hl.2 w List.mem_cons_self
        cases h : (ws w).queued <;> simp_all
      have hwake : ∀ v, v ≠ w → ((ws.setQueued w .no).wake w).2 v = ws v := by
        intro v h
        simp [Waiters.wake]
        split <;> simp [h,hset]
      simp only [hq,↓reduceIte]
      have hp := pop_local (b := a) hl hwake (by intro _; rw [Waiters.wake_woken]; simp) (by simp)
      have h := ih _ a b hp.valid
      refine ⟨hp.trans h.toLocal,h.empty,?_⟩
      intro v
      rw [h.wokenIff,hstands _ hwake,Waiters.wake_woken]
      simp [hwait]
      tauto

theorem wakeAll_spec (hl : Valid ws l) :
    WokeAll ws l (wakeAll ws l).1 (wakeAll ws l).2 :=
  wakeAllLoop_spec ws l.abandoned l.abandoned l.waiters hl

theorem Local.valid_other {m : WaitList} {ws' : Waiters} {l' : WaitList} (h : Local ws l ws' l')
    (hm : Valid ws m) (hd : l.waiters.Disjoint m.waiters) : Valid ws' m := by
  refine ⟨hm.1,?_⟩
  intro v hv
  rw [h.frame v fun hl => hd hl hv]
  exact hm.2 v hv

theorem Local.stands_other {m : WaitList} {ws' : Waiters} {l' : WaitList} (h : Local ws l ws' l')
    (hd : l.waiters.Disjoint m.waiters) : Stands ws' m v ↔ Stands ws m v := by
  constructor
  · intro hv
    have hf := h.frame v fun hl => hd hl hv.1
    exact ⟨hv.1,by rw [← hf]; exact hv.2⟩
  · intro hv
    have hf := h.frame v fun hl => hd hl hv.1
    exact ⟨hv.1,by rw [hf]; exact hv.2⟩

end WaitList
end Ens.Tasks
