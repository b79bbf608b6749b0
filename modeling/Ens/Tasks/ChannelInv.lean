import Ens.Tasks.Channel

/-! # What every state of a channel keeps

The lock's own invariant, the line each parked task stands in, and the sender of a value
handed over: it waits for the value at the head of a buffer of one place, alone, and is
woken once that value is received or the receiving end released.
-/
set_option linter.all false
namespace Ens.Tasks.Channel
open Monitor
variable {T : Type}

structure Inv (s : State T) : Prop where
  lock : s.lock.Ok
  lines : ∀ p ∈ s.lock.parked, p.list = p.frame.line ∧ (p.list ≠ .receivers → p.cancellable = true)
  size : s.slots.length = places s.capacity
  head : s.head < s.slots.length
  count_le : s.count ≤ s.slots.length
  pending : ∀ p ∈ s.lock.parked, ∀ k position, p.frame = .receipt k position →
    s.capacity = 0 ∧ position ≤ s.received + s.count
  single : ∀ p ∈ s.lock.parked, ∀ q ∈ s.lock.parked, ∀ k k' position position',
    p.frame = .receipt k position → q.frame = .receipt k' position' →
    s.received < position → s.received < position' → p = q
  receipt : ∀ p ∈ s.lock.parked, ∀ k position, p.frame = .receipt k position →
    (s.lock.waiters p.waiter).woken = false → s.receiverReleased = false ∧ s.received < position
  closed : closed s = true → s.lock.unwoken .receivers = 0
  released : s.receiverReleased = true → s.lock.unwoken .room = 0
  senders : 0 ≤ s.senders

variable {s : State T} {t : Token} {k position : ℕ} {v : T}

theorem inv_new (capacity : ℤ) : Inv (new capacity : State T) where
  lock := Monitor.ok_init
  lines := by simp [new]
  size := List.length_replicate
  head := by simpa [new] using places_pos capacity
  count_le := by simp [new]
  pending := by simp [new]
  single := by simp [new]
  receipt := by simp [new]
  closed := by simp [new,Channel.closed]
  released := by simp [new]
  senders := Int.le_refl 0

theorem Inv.size_pos (h : Inv s) : 0 < s.slots.length := Nat.lt_of_le_of_lt (Nat.zero_le _) h.head

theorem Inv.size_one (h : Inv s) (hc : s.capacity = 0) : s.slots.length = 1 := by
  rw [h.size,hc,places_zero]

/-- No sender waits for the receipt of a value still in the buffer. -/
def NonePending (s : State T) : Prop :=
  ∀ p ∈ s.lock.parked, ∀ k position, p.frame = .receipt k position → position ≤ s.received

theorem Inv.nonePending_of_empty (h : Inv s) (hc : s.count = 0) : NonePending s := by
  intro p hp k position hf
  have := (h.pending p hp k position hf).2
  omega

/-- A change of the lock that parks nobody and only wakes keeps the invariant. -/
theorem Inv.setLock (h : Inv s) {m : Monitor Line (Frame T)} (hm : m.Ok)
    (hsub : ∀ p ∈ m.parked, p ∈ s.lock.parked)
    (hw : ∀ w, (s.lock.waiters w).woken = true → (m.waiters w).woken = true)
    (hu : ∀ i, m.unwoken i ≤ s.lock.unwoken i) : Inv { s with lock := m } where
  lock := hm
  lines p hp := h.lines p (hsub p hp)
  size := h.size
  head := h.head
  count_le := h.count_le
  pending p hp := h.pending p (hsub p hp)
  single p hp q hq := h.single p (hsub p hp) q (hsub q hq)
  receipt p hp k position hf hn := by
    refine h.receipt p (hsub p hp) k position hf (Bool.eq_false_iff.mpr fun hv => ?_)
    have hn : (m.waiters p.waiter).woken = false := hn
    rw [hw _ hv] at hn; cases hn
  closed hc := by have := h.closed hc; have := hu .receivers; dsimp only; omega
  released hc := by have := h.released hc; have := hu .room; dsimp only; omega
  senders := h.senders

theorem Inv.unpark (h : Inv s) {p : Parked Line (Frame T)} (hp : p ∈ s.lock.parked) :
    Inv { s with lock := s.lock.unpark p } := by
  refine h.setLock (unpark_ok h.lock hp) (fun q hq => (List.mem_filter.mp hq).1) ?_ ?_
  · intro w hw; simpa [Monitor.unpark,setList] using hw
  · intro i; have := unpark_unwoken h.lock hp i; omega

theorem Inv.wakeOne (h : Inv s) (i : Line) : Inv { s with lock := s.lock.wakeOne i } :=
  h.setLock (wakeOne_ok h.lock i) (fun _ hp => hp)
    (WaitList.wakeOne_spec (h.lock.valid i)).toLocal.woken fun j => (wakeOne_mono h.lock i j).1

theorem Inv.wakeAll (h : Inv s) (i : Line) : Inv { s with lock := s.lock.wakeAll i } :=
  h.setLock (wakeAll_ok h.lock i) (fun _ hp => hp)
    (WaitList.wakeAll_spec (h.lock.valid i)).toLocal.woken fun j => (wakeAll_mono h.lock i j).1

theorem Inv.cancel (h : Inv s) (t : Token) (b : Bool) : Inv { s with lock := s.lock.cancel t b } :=
  h.setLock (cancel_ok h.lock t b) (fun _ hp => hp) (fun _ hw => hw) fun _ => Nat.le_refl _

theorem Inv.interrupt (h : Inv s) (w : ℕ) : Inv { s with lock := s.lock.interrupt w } :=
  h.setLock (interrupt_ok h.lock w) (fun _ hp => hp)
    (fun v hv => by simp [Monitor.interrupt,Waiters.wake_woken,hv]) fun j => (interrupt_mono s.lock w j).1

/-- The record of outcomes and the number of calls are no part of the invariant. -/
theorem Inv.record (h : Inv s) (e : Event T) : Inv (record s e) :=
  ⟨h.lock,h.lines,h.size,h.head,h.count_le,h.pending,h.single,h.receipt,h.closed,h.released,h.senders⟩

theorem Inv.setSends (h : Inv s) (n : ℕ) : Inv { s with sends := n } :=
  ⟨h.lock,h.lines,h.size,h.head,h.count_le,h.pending,h.single,h.receipt,h.closed,h.released,h.senders⟩

/-- Parking a task keeps the invariant where nothing yet lets it go on. -/
theorem Inv.park (h : Inv s) (ht : ∀ p ∈ s.lock.parked, p.task ≠ t) {c : Bool} {f : Frame T}
    (hc : f.line ≠ .receivers → c = true)
    (hreceipt : ∀ k position, f = .receipt k position → s.capacity = 0 ∧ NonePending s ∧
      position ≤ s.received + s.count ∧ s.receiverReleased = false ∧ s.received < position)
    (hroom : f.line = .room → s.receiverReleased = false)
    (hreceivers : f.line = .receivers → Channel.closed s = false) :
    Inv { s with lock := s.lock.park t f.line c f } where
  lock := park_ok h.lock ht f.line c f
  lines p hp := by
    rcases List.mem_append.mp hp with hp | hp
    · exact h.lines p hp
    · obtain rfl := List.mem_singleton.mp hp
      exact ⟨rfl,hc⟩
  size := h.size
  head := h.head
  count_le := h.count_le
  pending p hp k position hf := by
    rcases List.mem_append.mp hp with hp | hp
    · exact h.pending p hp k position hf
    · obtain rfl := List.mem_singleton.mp hp
      obtain ⟨h0,-,hle,-⟩ := hreceipt k position hf
      exact ⟨h0,hle⟩
  single p hp q hq k k' position position' hf hg hlt hlt' := by
    have hlt : s.received < position := hlt
    have hlt' : s.received < position' := hlt'
    rcases List.mem_append.mp hp with hp | hp <;> rcases List.mem_append.mp hq with hq | hq
    · exact h.single p hp q hq k k' position position' hf hg hlt hlt'
    · obtain rfl := List.mem_singleton.mp hq
      have := (hreceipt k' position' hg).2.1 p hp k position hf
      omega
    · obtain rfl := List.mem_singleton.mp hp
      have := (hreceipt k position hf).2.1 q hq k' position' hg
      omega
    · rw [List.mem_singleton.mp hp,List.mem_singleton.mp hq]
  receipt p hp k position hf hw := by
    rcases List.mem_append.mp hp with hp | hp
    · exact h.receipt p hp k position hf (by rw [← park_woken h.lock c f hp]; exact hw)
    · obtain rfl := List.mem_singleton.mp hp
      exact (hreceipt k position hf).2.2.2
  closed hcl := by
    have hcl : Channel.closed s = true := hcl
    have hne : f.line ≠ .receivers := fun he => by rw [hreceivers he] at hcl; cases hcl
    simpa [park_unwoken h.lock,hne] using h.closed hcl
  released hr := by
    have hr : s.receiverReleased = true := hr
    have hne : f.line ≠ .room := fun he => by rw [hroom he] at hr; cases hr
    simpa [park_unwoken h.lock,hne] using h.released hr
  senders := h.senders

theorem withdraw_inv (h : Inv s) (hn : NonePending s) (k : ℕ) : Inv (withdraw s k) := by
  have hw := h.wakeOne .room
  refine Inv.record ?_ _
  refine ⟨hw.lock,hw.lines,?_,?_,?_,?_,hw.single,hw.receipt,hw.closed,hw.released,hw.senders⟩
  · simpa using h.size
  · simpa using h.head
  · have := h.count_le
    simp only [List.length_set]; omega
  · intro p hp k position hf
    have := hn p hp k position hf
    exact ⟨(h.pending p hp k position hf).1,by dsimp only; omega⟩

theorem write_inv (h : Inv s) (hlt : s.count < s.slots.length) (k : ℕ) (v : T) :
    Inv (write s k v) := by
  have hw := h.wakeOne .receivers
  refine Inv.record ?_ _
  refine ⟨hw.lock,hw.lines,?_,?_,?_,?_,hw.single,hw.receipt,hw.closed,hw.released,hw.senders⟩
  · simpa using h.size
  · simpa using h.head
  · simp only [List.length_set]; omega
  · intro p hp k position hf
    have := h.pending p hp k position hf
    exact ⟨this.1,by dsimp only; omega⟩

theorem removeHead_inv (h : Inv s) : Inv (removeHead s) := by
  unfold removeHead
  split
  · exact h.record _
  · rename_i hc
    have hw := (h.wakeAll .receipt).wakeOne .room
    refine Inv.record ?_ _
    refine ⟨hw.lock,hw.lines,?_,?_,?_,?_,?_,?_,hw.closed,hw.released,hw.senders⟩
    · simpa using h.size
    · simpa using Nat.mod_lt _ h.size_pos
    · have := h.count_le
      simp only [List.length_set]; omega
    · intro p hp k position hf
      have := h.pending p hp k position hf
      exact ⟨this.1,by dsimp only; omega⟩
    · intro p hp q hq k k' position position' hf hg hlt hlt'
      exact h.single p hp q hq k k' position position' hf hg
        (Nat.lt_of_succ_lt hlt) (Nat.lt_of_succ_lt hlt')
    · intro p hp k position hf hv
      -- every sender waiting for a receipt was woken just before
      have hl : p.list = .receipt := by rw [(h.lines p hp).1,hf]; rfl
      have hz := wakeAll_unwoken h.lock .receipt
      have hall := WaitList.wakeOne_spec ((wakeAll_ok h.lock .receipt).valid .room)
      have hv : ((s.lock.wakeAll .receipt).waiters p.waiter).woken = false :=
        Bool.eq_false_iff.mpr fun hn => by
          have := hall.toLocal.woken p.waiter hn
          exact absurd (hv.symm.trans this) (by simp)
      have := List.countP_eq_zero.mp hz p hp
      simp [isUnwoken,hl,hv] at this

theorem awaitReceipt_inv (h : Inv s) (ht : ∀ p ∈ s.lock.parked, p.task ≠ t) (k : ℕ)
    (hp : s.received < position → s.capacity = 0 ∧ NonePending s ∧ position ≤ s.received + s.count) :
    Inv (awaitReceipt s t k position) := by
  unfold awaitReceipt
  split
  · rename_i hc
    obtain ⟨h0,hn,hle⟩ := hp hc.2
    unfold Monitor.wait
    split
    · rename_i heq
      split at heq
      · cases heq
      · cases heq
        refine h.park (f := .receipt k position) ht (fun _ => rfl) ?_ (by simp [Frame.line])
          (by simp [Frame.line])
        rintro k' position' ⟨⟩
        exact ⟨h0,hn,hle,hc.1,hc.2⟩
    · exact (withdraw_inv h hn k).record _
  · split
    · rename_i hlt
      exact (withdraw_inv h (hp hlt).2.1 k).record _
    · exact h.record _

theorem put_inv (h : Inv s) (ht : ∀ p ∈ s.lock.parked, p.task ≠ t) (k : ℕ) (v : T) :
    Inv (put s t k v) := by
  unfold put
  split
  · rename_i hc
    unfold Monitor.wait
    split
    · rename_i heq
      split at heq
      · cases heq
      · cases heq
        refine h.park (f := .room k v) ht (fun _ => rfl) (by simp) (fun _ => hc.1) (by simp [Frame.line])
    · exact h.record _
  · rename_i hc
    split
    · exact h.record _
    · rename_i hr
      have hlt : s.count < s.slots.length := by
        have := h.count_le
        have : s.count ≠ s.slots.length := fun he => hc ⟨by simpa using hr,he⟩
        omega
      have hw := write_inv h hlt k v
      dsimp only
      split
      · rename_i h0
        refine awaitReceipt_inv hw ht k fun _ => ⟨h0,?_,Nat.le_refl _⟩
        have hz : s.count = 0 := by have := h.size_one h0; omega
        exact h.nonePending_of_empty hz
      · exact hw.record _

theorem take_inv (h : Inv s) (ht : ∀ p ∈ s.lock.parked, p.task ≠ t) (l c e : Bool) :
    Inv (take s t l c e) := by
  unfold take
  split
  · rename_i hc
    split
    · exact removeHead_inv h
    · unfold Monitor.wait
      split
      · rename_i heq
        split at heq
        · cases heq
        · cases heq
          exact h.park (f := .receivers l) ht (by simp [Frame.line]) (by simp) (by simp [Frame.line])
            (fun _ => hc.2)
      · exact h.record _
  · exact removeHead_inv h

theorem find_isSome_false (h : ¬(s.lock.find t).isSome = true) : ∀ p ∈ s.lock.parked, p.task ≠ t :=
  find_none (by simpa using h)

theorem resumed_inv (h : Inv s) {p : Parked Line (Frame T)} (hp : p ∈ s.lock.parked) (e : Bool) :
    Inv (resumed { s with lock := s.lock.unpark p } p e) := by
  have hu := h.unpark hp
  have ht : ∀ q ∈ (s.lock.unpark p).parked, q.task ≠ p.task := fun q hq => by
    simpa using (List.mem_filter.mp hq).2
  unfold resumed
  split
  · split
    · exact hu.record _
    · exact put_inv hu ht _ _
  · rename_i k position hf
    have hn : s.received < position → NonePending { s with lock := s.lock.unpark p } := by
      intro hlt q hq k' position' hg
      by_contra hgt
      have hq' := List.mem_filter.mp hq
      have := h.single p hp q hq'.1 k k' position position' hf hg hlt (by dsimp only at hgt; omega)
      subst this
      simp at hq'
    split
    · rename_i hd
      exact (withdraw_inv hu (hn hd.2) k).record _
    · exact awaitReceipt_inv hu ht k fun hlt =>
        ⟨(h.pending p hp k position hf).1,hn hlt,(h.pending p hp k position hf).2⟩
  · split
    · exact hu.record _
    · exact take_inv hu ht _ _ _

theorem step_inv (s : State T) (a : Action T) (s' : State T) (h : Inv s) (hs : step s a = some s') :
    Inv s' := by
  cases a with
  | send t v =>
    simp only [step] at hs
    split at hs
    · cases hs
    · rename_i hf; cases hs
      exact put_inv (h.setSends (s.sends + 1)) (find_isSome_false hf) _ _
  | receive t l e =>
    simp only [step] at hs
    split at hs
    · cases hs
    · rename_i hf; cases hs
      exact take_inv h (find_isSome_false hf) _ _ _
  | receiveWaiting t =>
    simp only [step] at hs
    split at hs
    · cases hs
    · rename_i hf; cases hs
      exact take_inv h (find_isSome_false hf) _ _ _
  | resume t e =>
    simp only [step] at hs
    split at hs
    · cases hs
    · rename_i p hf; cases hs
      exact resumed_inv h (find_some hf).1 e
  | addSender =>
    cases hs
    have hs := h.senders
    refine ⟨h.lock,h.lines,h.size,h.head,h.count_le,h.pending,h.single,h.receipt,?_,h.released,
      by dsimp only; omega⟩
    intro hc
    simp only [Channel.closed,Bool.true_and,decide_eq_true_eq] at hc
    omega
  | releaseSender =>
    simp only [step] at hs
    split at hs
    · rename_i hpos
      cases hs
      split
      · have hw := h.wakeAll .receivers
        exact ⟨hw.lock,hw.lines,hw.size,hw.head,hw.count_le,hw.pending,hw.single,hw.receipt,
          fun _ => wakeAll_unwoken h.lock .receivers,hw.released,by dsimp only; omega⟩
      · rename_i hne
        refine ⟨h.lock,h.lines,h.size,h.head,h.count_le,h.pending,h.single,h.receipt,?_,h.released,by dsimp only; omega⟩
        intro hc
        simp [Channel.closed,hne] at hc
    · cases hs
  | releaseReceiver =>
    cases hs
    have hw := (h.wakeAll .room).wakeAll .receipt
    refine ⟨hw.lock,hw.lines,hw.size,hw.head,hw.count_le,hw.pending,hw.single,?_,hw.closed,?_,hw.senders⟩
    · intro p hp k position hf hv
      have hl : p.list = .receipt := by rw [(h.lines p hp).1,hf]; rfl
      have := List.countP_eq_zero.mp (wakeAll_unwoken (wakeAll_ok h.lock .room) .receipt) p hp
      have hv : (((s.lock.wakeAll .room).wakeAll .receipt).waiters p.waiter).woken = false := hv
      simp [isUnwoken,hl,hv] at this
    · intro _
      have := (wakeAll_mono (wakeAll_ok h.lock .room) .receipt .room).1
      have := wakeAll_unwoken h.lock .room
      dsimp only; omega
  | cancel t => cases hs; exact h.cancel t true
  | uncancel t =>
    simp only [step] at hs
    split at hs
    · cases hs
    · cases hs; exact h.cancel t false
  | interrupt w => cases hs; exact h.interrupt w

end Ens.Tasks.Channel
