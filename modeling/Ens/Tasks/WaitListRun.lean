import Ens.Logic.Exec
import Ens.Tasks.Waiting

/-! # A wait list over its runs

The waiters added to a list, in the order of their adds, tell with those removed and those woken whom the list holds. Leaving only marks a
waiter, so the count of the marks decides when the list is swept.
-/
set_option linter.all false
namespace Ens.Tasks.WaitList
open Exec
variable {ws ws' : Waiters} {l l' : WaitList} {v w : ℕ} {xs ys : List ℕ}

/-! ### Marks and their count -/

def isAbandoned (ws : Waiters) (w : ℕ) : Bool := decide ((ws w).queued = .abandoned)

/-- The count of the list is that of the waiters in it marked abandoned. -/
def Counted (ws : Waiters) (l : WaitList) : Prop := l.abandoned = l.waiters.countP (isAbandoned ws)

/-- The mark of a waiter says whether it is in the list. -/
def Marked (ws : Waiters) (l : WaitList) : Prop := ∀ w, (ws w).queued ≠ .no ↔ w ∈ l.waiters

theorem countP_abandoned_congr (h : ∀ v ∈ xs, (ws' v).queued = (ws v).queued) :
    xs.countP (isAbandoned ws') = xs.countP (isAbandoned ws) :=
  List.countP_congr fun v hv => by rw [isAbandoned,isAbandoned,h v hv]

theorem Local.marked (h : Local ws l ws' l') (hm : Marked ws l) : Marked ws' l' := fun w => by
  constructor
  · intro hq
    by_contra hw
    by_cases hl : w ∈ l.waiters
    · exact hq (h.out w hl hw)
    · rw [h.frame w hl] at hq
      exact hl ((hm w).mp hq)
  · exact fun hw => h.valid.2 w hw

theorem add_marked (hm : Marked ws l) : Marked (add ws l w).1 (add ws l w).2 := fun v => by
  have hmem : v ∈ (add ws l w).2.waiters ↔ v ∈ l.waiters ∨ v = w := by
    rw [add]
    dsimp only
    rw [List.mem_append,List.mem_singleton]
  rw [hmem]
  by_cases h : v = w
  · rw [h]
    exact iff_of_true (by rw [add,Waiters.setQueued_queued_self]; rintro ⟨⟩) (.inr rfl)
  · rw [add_frame h,hm v,or_iff_left h]

theorem add_counted (hw : w ∉ l.waiters) (hc : Counted ws l) : Counted (add ws l w).1 (add ws l w).2 := by
  have hother : l.waiters.countP (isAbandoned (ws.setQueued w .waiting)) = l.waiters.countP (isAbandoned ws) :=
    countP_abandoned_congr fun v hv => by rw [Waiters.setQueued_of_ne ws _ (ne_of_mem_of_not_mem hv hw)]
  have hself : isAbandoned (ws.setQueued w .waiting) w = false := by
    rw [isAbandoned,Waiters.setQueued_queued_self]
    rfl
  rw [Counted,add]
  dsimp only
  rw [List.countP_append,hother,List.countP_singleton,hself]
  exact hc

theorem sweep_counted : Counted (sweep ws l).1 (sweep ws l).2 := by
  have hnone : (l.waiters.filter fun w => (ws w).queued = .waiting).countP (isAbandoned (sweep ws l).1) = 0 := by
    rw [List.countP_eq_zero]
    intro v hv
    obtain ⟨-,hq⟩ := List.mem_filter.mp hv
    have hq : (ws v).queued = .waiting := decide_eq_true_iff.mp hq
    have hkept : (sweep ws l).1 v = ws v := if_neg fun h => h.2 hq
    rw [isAbandoned,hkept,hq]
    exact nofun
  rw [Counted,show (sweep ws l).2.waiters = l.waiters.filter fun w => (ws w).queued = .waiting from rfl,hnone]
  rfl

theorem countP_mark (hn : xs.Nodup) (hw : w ∈ xs) (hq : (ws w).queued = .waiting) :
    xs.countP (isAbandoned (ws.setQueued w .abandoned)) = xs.countP (isAbandoned ws) + 1 := by
  obtain ⟨front,back,rfl⟩ := List.append_of_mem hw
  obtain ⟨-,hback,hdisjoint⟩ := List.nodup_append.mp hn
  have hfront : ∀ v ∈ front, v ≠ w := fun v hv => hdisjoint v hv w List.mem_cons_self
  have hrest : ∀ v ∈ back, v ≠ w := fun v hv h => (List.nodup_cons.mp hback).1 (h ▸ hv)
  have hsame : ∀ {part : List ℕ}, (∀ v ∈ part, v ≠ w) → part.countP (isAbandoned (ws.setQueued w .abandoned)) =
      part.countP (isAbandoned ws) := fun h => countP_abandoned_congr fun v hv => by rw [Waiters.setQueued_of_ne ws _ (h v hv)]
  have hself : isAbandoned (ws.setQueued w .abandoned) w = true := by
    rw [isAbandoned,Waiters.setQueued_queued_self]
    rfl
  have hbefore : ¬isAbandoned ws w = true := by
    rw [isAbandoned,hq]
    exact nofun
  rw [List.countP_append,List.countP_append,hsame hfront,List.countP_cons_of_pos hself,List.countP_cons_of_neg hbefore,hsame hrest]
  omega

theorem remove_counted (hl : Valid ws l) (hm : Marked ws l) (hc : Counted ws l) : Counted (remove ws l w).1 (remove ws l w).2 := by
  unfold remove
  split
  · exact hc
  · rename_i hq
    have hq : (ws w).queued = .waiting := not_not.mp hq
    have hw : w ∈ l.waiters := (hm w).mp (by rw [hq]; exact nofun)
    dsimp only
    split
    · exact sweep_counted
    · rw [Counted]
      dsimp only
      rw [countP_mark hl.1 hw hq,hc]
      rfl

theorem leave_counted {a : ℤ} {m : List ℕ} (hw : w ∉ xs) (hc : a = (w :: xs).countP (isAbandoned ws)) :
    (leave ws ⟨m,a⟩ w).2.2.abandoned = xs.countP (isAbandoned (leave ws ⟨m,a⟩ w).2.1) ∧ (leave ws ⟨m,a⟩ w).2.2.waiters = m := by
  have hrest : xs.countP (isAbandoned (ws.setQueued w .no)) = xs.countP (isAbandoned ws) :=
    countP_abandoned_congr fun v hv => by rw [Waiters.setQueued_of_ne ws _ (ne_of_mem_of_not_mem hv hw)]
  unfold leave
  split
  · rename_i hq
    rw [List.countP_cons_of_pos (by rw [isAbandoned,hq]; rfl)] at hc
    refine ⟨?_,rfl⟩
    dsimp only
    rw [hrest,hc]
    omega
  · rename_i hq
    rw [List.countP_cons_of_neg (by rw [isAbandoned,decide_eq_true_iff]; exact hq)] at hc
    exact ⟨by dsimp only; rw [hrest,hc],rfl⟩

theorem countP_wake (ws : Waiters) (w : ℕ) (xs : List ℕ) : xs.countP (isAbandoned (ws.wake w).2) = xs.countP (isAbandoned ws) :=
  countP_abandoned_congr fun v _ => Waiters.wake_queued ws w v

theorem wakeOneLoop_counted (a : ℤ) (hn : xs.Nodup) (hc : a = xs.countP (isAbandoned ws)) :
    Counted (wakeOneLoop ws a xs).1 (wakeOneLoop ws a xs).2 := by
  induction xs generalizing ws a with
  | nil => exact hc
  | cons w rest ih =>
    obtain ⟨hw,hrest⟩ := List.nodup_cons.mp hn
    obtain ⟨hleft,hwaiters⟩ := leave_counted (m := rest) hw hc
    rw [wakeOneLoop]
    generalize leave ws ⟨rest,a⟩ w = left at hleft hwaiters
    obtain ⟨waited,ws₁,l₁⟩ := left
    dsimp only at hleft hwaiters ⊢
    cases waited with
    | false => exact ih l₁.abandoned hrest hleft
    | true =>
      cases hwoke : (ws₁.wake w).1 with
      | true =>
        rw [if_pos rfl,if_pos rfl,Counted,hwaiters,countP_wake]
        exact hleft
      | false =>
        rw [if_pos rfl,if_neg Bool.false_ne_true]
        exact ih l₁.abandoned hrest (by rw [countP_wake]; exact hleft)

theorem wakeAllLoop_counted (a : ℤ) (hn : xs.Nodup) (hc : a = xs.countP (isAbandoned ws)) :
    Counted (wakeAllLoop ws ⟨[],a⟩ xs).1 (wakeAllLoop ws ⟨[],a⟩ xs).2 := by
  induction xs generalizing ws a with
  | nil => exact hc
  | cons w rest ih =>
    obtain ⟨hw,hrest⟩ := List.nodup_cons.mp hn
    obtain ⟨hleft,hwaiters⟩ := leave_counted (m := []) hw hc
    rw [wakeAllLoop]
    generalize leave ws ⟨[],a⟩ w = left at hleft hwaiters
    obtain ⟨waited,ws₁,m,a₁⟩ := left
    dsimp only at hleft hwaiters ⊢
    subst hwaiters
    split
    · exact ih a₁ hrest (by rw [countP_wake]; exact hleft)
    · exact ih a₁ hrest hleft

/-! ### Runs -/

structure Run where
  waiters : Waiters := fun _ => {}
  list : WaitList := {}
  added : List ℕ := []
  removed : List ℕ := []

inductive Action
  | add (w : ℕ)
  | remove (w : ℕ)
  | wakeOne
  | wakeAll
  | other (w : ℕ)

def step (s : Run) : Action → Option Run
  | .add w =>
    if w ∈ s.added then none
    else
      let r := WaitList.add s.waiters s.list w
      some { s with waiters := r.1, list := r.2, added := s.added ++ [w] }
  | .remove w =>
    let r := WaitList.remove s.waiters s.list w
    some { s with waiters := r.1, list := r.2, removed := if w ∈ s.added then w :: s.removed else s.removed }
  | .wakeOne =>
    let r := WaitList.wakeOne s.waiters s.list
    some { s with waiters := r.1, list := r.2 }
  | .wakeAll =>
    let r := WaitList.wakeAll s.waiters s.list
    some { s with waiters := r.1, list := r.2 }
  | .other w => some { s with waiters := (s.waiters.wake w).2 }

def Run.waits (s : Run) (w : ℕ) : Bool := decide (w ∉ s.removed) && !(s.waiters w).woken

def Run.longest (s : Run) : Option ℕ := s.added.find? s.waits

structure Run.Inv (s : Run) : Prop where
  valid : Valid s.waiters s.list
  counted : Counted s.waiters s.list
  marked : Marked s.waiters s.list
  nodup : s.added.Nodup
  order : s.list.waiters.Sublist s.added
  past : ∀ w ∈ s.removed, w ∈ s.added
  stands : ∀ w ∈ s.list.waiters, Stands s.waiters s.list w ↔ w ∉ s.removed
  kept : ∀ w ∈ s.added, w ∉ s.removed → Stands s.waiters s.list w ∨ (s.waiters w).woken = true

/-! ### What the calls keep of the list -/

theorem sweep_sublist : (sweep ws l).2.waiters.Sublist l.waiters := List.filter_sublist

theorem remove_sublist : (remove ws l w).2.waiters.Sublist l.waiters := by
  unfold remove
  split
  · exact List.Sublist.refl _
  · dsimp only
    split
    · exact sweep_sublist
    · exact List.Sublist.refl _

/-- Who is in a list but does not stand is marked abandoned. -/
theorem Valid.not_stands (hl : Valid ws l) (hw : w ∈ l.waiters) : ¬Stands ws l w ↔ (ws w).queued = .abandoned := by
  have hno := hl.2 w hw
  constructor
  · intro h
    cases hq : (ws w).queued with
    | no => exact absurd hq hno
    | waiting => exact absurd ⟨hw,hq⟩ h
    | abandoned => rfl
  · rintro hq ⟨-,hwait⟩
    rw [hq] at hwait
    cases hwait

theorem sweep_drops (hl : Valid ws l) (hw : w ∈ l.waiters) : w ∉ (sweep ws l).2.waiters ↔ (ws w).queued = .abandoned := by
  rw [← hl.not_stands hw]
  refine not_congr ⟨fun h => ⟨hw,?_⟩,fun h => (sweep_stands.mpr h).1⟩
  exact decide_eq_true_iff.mp (List.mem_filter.mp h).2

theorem leave_frame {m : WaitList} (h : v ≠ w) : (leave ws m w).2.1 v = ws v := by
  unfold leave
  split <;> exact Waiters.setQueued_of_ne ws _ h

theorem wake_frame (h : v ≠ w) : (ws.wake w).2 v = ws v := by
  unfold Waiters.wake
  split
  · rfl
  · exact Function.update_of_ne h _ _

theorem wakeOneLoop_rest (ws : Waiters) (a : ℤ) (hn : xs.Nodup) : (wakeOneLoop ws a xs).2.waiters.Sublist xs ∧
    ∀ v ∈ (wakeOneLoop ws a xs).2.waiters, (wakeOneLoop ws a xs).1 v = ws v := by
  induction xs generalizing ws a with
  | nil => exact ⟨List.Sublist.refl _,fun v _ => rfl⟩
  | cons w rest ih =>
    obtain ⟨hw,hrest⟩ := List.nodup_cons.mp hn
    have hlist : (leave ws ⟨rest,a⟩ w).2.2.waiters = rest := by
      unfold leave
      split <;> rfl
    have hframe : ∀ v ∈ rest, (leave ws ⟨rest,a⟩ w).2.1 v = ws v := fun v hv => leave_frame (ne_of_mem_of_not_mem hv hw)
    rw [wakeOneLoop]
    generalize leave ws ⟨rest,a⟩ w = left at hlist hframe
    obtain ⟨waited,ws₁,l₁⟩ := left
    dsimp only at hlist hframe ⊢
    have hwoken : ∀ v ∈ rest, (ws₁.wake w).2 v = ws v := fun v hv =>
      (wake_frame (ne_of_mem_of_not_mem hv hw)).trans (hframe v hv)
    have hskip : ∀ ws₂ : Waiters, (∀ v ∈ rest, ws₂ v = ws v) →
        (wakeOneLoop ws₂ l₁.abandoned rest).2.waiters.Sublist (w :: rest) ∧
        ∀ v ∈ (wakeOneLoop ws₂ l₁.abandoned rest).2.waiters, (wakeOneLoop ws₂ l₁.abandoned rest).1 v = ws v := by
      intro ws₂ hsame
      obtain ⟨hsub,hkept⟩ := ih ws₂ l₁.abandoned hrest
      exact ⟨hsub.cons w,fun v hv => (hkept v hv).trans (hsame v (hsub.subset hv))⟩
    cases waited with
    | false => exact hskip ws₁ hframe
    | true =>
      cases (ws₁.wake w).1 with
      | true => exact ⟨hlist ▸ List.sublist_cons_self w rest,fun v hv => hwoken v (hlist ▸ hv)⟩
      | false => exact hskip _ hwoken

theorem find?_sublist {p : ℕ → Bool} (h : xs.Sublist ys) (hp : ∀ v ∈ ys, p v = true → v ∈ xs) (hn : ys.Nodup) :
    xs.find? p = ys.find? p := by
  induction h with
  | slnil => rfl
  | @cons xs ys w h ih =>
    obtain ⟨hw,hys⟩ := List.nodup_cons.mp hn
    have hfalse : ¬p w = true := fun hpw => hw (h.subset (hp w List.mem_cons_self hpw))
    rw [List.find?_cons_of_neg hfalse]
    exact ih (fun v hv => hp v (List.mem_cons_of_mem _ hv)) hys
  | @cons_cons xs ys w h ih =>
    obtain ⟨hw,hys⟩ := List.nodup_cons.mp hn
    have hrest := ih (fun v hv hpv => (List.mem_cons.mp (hp v (List.mem_cons_of_mem _ hv) hpv)).resolve_left
      (ne_of_mem_of_not_mem hv hw)) hys
    rw [List.find?_cons,List.find?_cons,hrest]

namespace Run
variable {s t : Run} {a : Action}

theorem inv_start : Inv {} where
  valid := valid_empty _
  counted := rfl
  marked _ := iff_of_false (fun h => h rfl) List.not_mem_nil
  nodup := List.nodup_nil
  order := List.Sublist.refl _
  past _ hw := absurd hw List.not_mem_nil
  stands _ hw := absurd hw List.not_mem_nil
  kept _ hw := absurd hw List.not_mem_nil

theorem Inv.add (h : Inv s) (hw : w ∉ s.added) : Inv { s with
    waiters := (WaitList.add s.waiters s.list w).1, list := (WaitList.add s.waiters s.list w).2, added := s.added ++ [w] } := by
  have hlist : w ∉ s.list.waiters := fun hm => hw (h.order.subset hm)
  have hnew : w ∉ s.removed := fun hm => hw (h.past w hm)
  refine ⟨add_valid h.valid hlist,add_counted hlist h.counted,add_marked h.marked,?_,h.order.append_right [w],
    fun v hv => List.mem_append_left _ (h.past v hv),fun v hv => ?_,fun v hv hr => ?_⟩
  · exact h.nodup.append (List.nodup_singleton w) fun v hv hvw => hw (List.mem_singleton.mp hvw ▸ hv)
  · rw [add_stands]
    rcases List.mem_append.mp hv with hv | hv
    · rw [h.stands v hv,or_iff_left (ne_of_mem_of_not_mem hv hlist)]
    · rw [List.mem_singleton.mp hv]
      exact iff_of_true (.inr rfl) hnew
  · rw [add_stands,add_woken]
    rcases List.mem_append.mp hv with hv | hv
    · exact (h.kept v hv hr).imp_left .inl
    · exact .inl (.inr (List.mem_singleton.mp hv))

theorem Inv.remove (h : Inv s) : Inv { s with
    waiters := (WaitList.remove s.waiters s.list w).1, list := (WaitList.remove s.waiters s.list w).2,
    removed := if w ∈ s.added then w :: s.removed else s.removed } := by
  have hlocal := remove_local (w := w) h.valid fun hq => (h.marked w).mp (by rw [hq]; exact nofun)
  have hremoved : ∀ v ∈ s.added, (v ∈ if w ∈ s.added then w :: s.removed else s.removed) ↔ v = w ∨ v ∈ s.removed := by
    intro v hv
    split
    · exact List.mem_cons
    · rename_i hw
      exact (or_iff_right (ne_of_mem_of_not_mem hv hw)).symm
  refine ⟨hlocal.valid,remove_counted h.valid h.marked h.counted,hlocal.marked h.marked,h.nodup,remove_sublist.trans h.order,
    fun v hv => ?_,fun v hv => ?_,fun v hv hr => ?_⟩
  · dsimp only at hv
    split at hv
    · rename_i hw
      rcases List.mem_cons.mp hv with rfl | hv
      · exact hw
      · exact h.past v hv
    · exact h.past v hv
  · have hold := hlocal.subset v hv
    rw [remove_stands,h.stands v hold,hremoved v (h.order.subset hold),not_or,and_comm]
  · rw [hremoved v hv,not_or] at hr
    rw [remove_stands,remove_woken]
    exact (h.kept v hv hr.2).imp_left fun hs => ⟨hs,hr.1⟩

theorem Inv.wakeOne (h : Inv s) : Inv { s with
    waiters := (WaitList.wakeOne s.waiters s.list).1, list := (WaitList.wakeOne s.waiters s.list).2 } := by
  have hone := wakeOne_spec h.valid
  obtain ⟨hsub,hsame⟩ := wakeOneLoop_rest s.waiters s.list.abandoned h.valid.1
  refine ⟨hone.valid,wakeOneLoop_counted _ h.valid.1 h.counted,hone.marked h.marked,h.nodup,hsub.trans h.order,h.past,
    fun v hv => ?_,fun v hv hr => ?_⟩
  · have hold := hsub.subset hv
    have hq : ((WaitList.wakeOne s.waiters s.list).1 v).queued = (s.waiters v).queued := congrArg Waiter.queued (hsame v hv)
    rw [← h.stands v hold]
    exact and_congr (iff_of_true hv hold) (by dsimp only; rw [hq])
  · rcases h.kept v hv hr with hs | hwoken
    · exact hone.left v hs
    · exact .inr (hone.woken v hwoken)

theorem Inv.wakeAll (h : Inv s) : Inv { s with
    waiters := (WaitList.wakeAll s.waiters s.list).1, list := (WaitList.wakeAll s.waiters s.list).2 } := by
  have hall := wakeAll_spec h.valid
  refine ⟨hall.valid,wakeAllLoop_counted _ h.valid.1 h.counted,hall.marked h.marked,h.nodup,?_,h.past,fun v hv => ?_,
    fun v hv hr => .inr ((hall.wokenIff v).mpr (h.kept v hv hr).symm)⟩
  · dsimp only
    rw [hall.empty]
    exact List.nil_sublist _
  · dsimp only at hv
    rw [hall.empty] at hv
    cases hv

theorem Inv.other (h : Inv s) : Inv { s with waiters := (s.waiters.wake w).2 } := by
  have hq : ∀ v, ((s.waiters.wake w).2 v).queued = (s.waiters v).queued := Waiters.wake_queued s.waiters w
  have hstands : ∀ v, Stands (s.waiters.wake w).2 s.list v ↔ Stands s.waiters s.list v := fun v => by rw [Stands,Stands,hq v]
  refine ⟨⟨h.valid.1,fun v hv => by rw [hq v]; exact h.valid.2 v hv⟩,?_,fun v => by dsimp only; rw [hq v]; exact h.marked v,h.nodup,
    h.order,h.past,fun v hv => (hstands v).trans (h.stands v hv),fun v hv hr => ?_⟩
  · rw [Counted]
    dsimp only
    rw [countP_wake]
    exact h.counted
  · rw [hstands v,Waiters.wake_woken,Bool.or_eq_true]
    exact (h.kept v hv hr).imp_right .inl

theorem Inv.step (h : Inv s) (hs : step s a = some t) : Inv t := by
  cases a with
  | add w =>
    rw [WaitList.step] at hs
    split at hs
    · cases hs
    · rename_i hw
      cases hs
      exact h.add hw
  | remove w =>
    cases hs
    exact h.remove
  | wakeOne =>
    cases hs
    exact h.wakeOne
  | wakeAll =>
    cases hs
    exact h.wakeAll
  | other w =>
    cases hs
    exact h.other

theorem Inv.next (h : Inv s) : WaitList.next s.waiters s.list = s.longest := by
  have hstill : ∀ v ∈ s.added, s.waits v = true → v ∈ s.list.waiters := by
    intro v hv hw
    rw [waits,Bool.and_eq_true,decide_eq_true_iff,Bool.not_eq_true'] at hw
    rcases h.kept v hv hw.1 with hs | hwoken
    · exact hs.1
    · rw [hw.2] at hwoken
      cases hwoken
  rw [longest,← find?_sublist h.order hstill h.nodup,WaitList.next]
  refine List.find?_congr fun v hv => ?_
  have hiff : (s.waiters v).queued = .waiting ↔ v ∉ s.removed := by
    rw [← h.stands v hv,Stands]
    exact (and_iff_right hv).symm
  rw [waits,Bool.decide_and]
  congr 1
  · exact decide_eq_decide.mpr hiff
  · cases (s.waiters v).woken <;> rfl

structure Keeps (s : Run) : Prop where
  counted : s.list.abandoned = s.list.waiters.countP (isAbandoned s.waiters)
  marked : ∀ w, (s.waiters w).queued ≠ .no ↔ w ∈ s.list.waiters
  inOrder : s.list.waiters.Sublist s.added
  wakesLongest : ∀ w, ((WaitList.wakeOne s.waiters s.list).1 w).woken = true ↔ (s.waiters w).woken = true ∨ s.longest = some w
  empties : (WaitList.wakeAll s.waiters s.list).2.waiters = []
  wakesAll : ∀ w ∈ s.added, w ∉ s.removed → ((WaitList.wakeAll s.waiters s.list).1 w).woken = true
  sweepsInOrder : (sweep s.waiters s.list).2.waiters.Sublist s.list.waiters
  sweeps : ∀ w ∈ s.list.waiters, w ∉ (sweep s.waiters s.list).2.waiters ↔ (s.waiters w).queued = .abandoned
  removesInOrder : ∀ w, (WaitList.remove s.waiters s.list w).2.waiters.Sublist s.list.waiters
  removes : ∀ w, ∀ v ∈ s.list.waiters, v ∉ (WaitList.remove s.waiters s.list w).2.waiters → v = w ∨ (s.waiters v).queued = .abandoned

theorem Inv.keeps (h : Inv s) : Keeps s where
  counted := h.counted
  marked := h.marked
  inOrder := h.order
  wakesLongest w := by rw [(wakeOne_spec h.valid).wokenIff,h.next]
  empties := (wakeAll_spec h.valid).empty
  wakesAll w hw hr := ((wakeAll_spec h.valid).wokenIff w).mpr (h.kept w hw hr).symm
  sweepsInOrder := sweep_sublist
  sweeps w hw := sweep_drops h.valid hw
  removesInOrder w := remove_sublist
  removes w v hv hd := by
    by_contra hne
    rw [not_or,← h.valid.not_stands hv,not_not] at hne
    exact hd (remove_stands.mpr ⟨hne.2,hne.1⟩).1

/-- In every run of calls and of wakes by others the count is that of the waiters marked abandoned, the marks say who is in the list, `wakeOne`
wakes the one that waited longest and no other, `wakeAll` leaves nobody waiting, and a sweep drops the abandoned alone. -/
theorem runs_keep (as : List Action) : HoldsAlong WaitList.step Keeps {} as := fun _ _ _ hrun =>
  (exec_invariant inv_start (fun _ _ _ h hs => h.step hs) hrun).keeps

/-- The second waiter is woken when the first was removed. -/
example : ((exec WaitList.step {} [.add 0,.add 1,.remove 0,.wakeOne]).map fun s => (s.waiters 1).woken) = some true := by decide

end Run
end Ens.Tasks.WaitList
