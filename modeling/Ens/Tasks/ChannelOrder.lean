import Ens.Logic.Ring
import Ens.Tasks.ChannelInv
import Ens.Tasks.ChannelLedger

/-! # A channel delivers in order and loses nothing

The buffer holds what the ledger says is queued, along every execution. The values received
are then the first of those whose send succeeded, and a send that throws has its value in
neither place.
-/
set_option linter.all false
namespace Ens.Tasks.Channel
open Monitor
variable {T : Type} {s : State T} {t : Token} {k position : ℕ} {v : T} {L : List (Frame T)}

def contents (s : State T) : List (Option T) := Ring.contents s.slots none s.head s.count

def frames (s : State T) : List (Frame T) := s.lock.parked.map Parked.frame

/-- The ledger holds of a state with calls under way at the frames of a list. -/
def Ledger (s : State T) (L : List (Frame T)) : Prop :=
  ∃ done pending, Books (s.capacity ≠ 0) s.log s.received s.sends (contents s) L done pending

theorem Ledger.perm {L' : List (Frame T)} (h : Ledger s L) (hl : L.Perm L') : Ledger s L' := by
  obtain ⟨d,p,h⟩ := h
  exact ⟨d,p,h.perm hl⟩

theorem Ledger.setLock (h : Ledger s L) (m : Monitor Line (Frame T)) : Ledger { s with lock := m } L := h

theorem ledger_new (capacity : ℤ) : Ledger (new capacity : State T) [] := ⟨[],[],Books.start⟩

/-! ### One rule for each part of a call -/

theorem length_contents (s : State T) : (contents s).length = s.count := Ring.length_contents

theorem withdraw_ledger (h : Ledger s (.receipt k position :: L)) (hlt : s.received < position)
    (hone : s.count = 1) (f : Failure) : Ledger (record (withdraw s k) (.refused k f)) L := by
  obtain ⟨d,p,h⟩ := h
  have hb := h.withdraw hlt (by rw [length_contents,hone]) f
  have hz : contents (record (withdraw s k) (.refused k f)) = [] := by
    show Ring.contents _ none s.head (s.count - 1) = []
    rw [hone]; rfl
  exact ⟨d,[],by rw [hz]; exact hb⟩

theorem write_ledger (h : Ledger s (.room k v :: L)) (hlt : s.count < s.slots.length)
    (hw : ∀ j p, .receipt j p ∈ L → p ≤ s.received) :
    Ledger (write s k v) (.receipt k (s.received + (s.count + 1)) :: L) := by
  obtain ⟨d,p,h⟩ := h
  have hb := h.write hw
  rw [length_contents] at hb
  have hc : contents (write s k v) = contents s ++ [some v] := Ring.contents_push hlt
  exact ⟨d,_,by rw [hc]; exact hb⟩

theorem removeHead_ledger (hi : Inv s) (h : Ledger s L) : Ledger (removeHead s) L := by
  obtain ⟨d,p,h⟩ := h
  unfold removeHead
  split
  · exact ⟨d,p,h.idle (Or.inl rfl)⟩
  · rename_i hc
    have hq := Ring.contents_pop (d := none) (v := none) hi.head hi.count_le (Nat.pos_of_ne_zero hc)
    rw [contents,hq] at h
    exact h.take

theorem record_idle (h : Ledger s L) {e : Event T} (he : e = .gotNothing ∨ e = .receiveCancelled) :
    Ledger (record s e) L := by
  obtain ⟨d,p,h⟩ := h
  exact ⟨d,p,h.idle he⟩

theorem record_refused (h : Ledger s (.room k v :: L)) (f : Failure) :
    Ledger (record s (.refused k f)) L := by
  obtain ⟨d,p,h⟩ := h
  exact ⟨d,p,h.refuse f⟩

theorem record_sent (h : Ledger s (.receipt k position :: L))
    (hb : s.capacity ≠ 0 ∨ position ≤ s.received) : Ledger (record s (.sent k)) L := by
  obtain ⟨d,p,h⟩ := h
  exact ⟨d,p,h.sentBy hb⟩

theorem park_ledger {f : Frame T} (h : Ledger s (f :: frames s)) (i : Line) (c : Bool) :
    Ledger { s with lock := s.lock.park t i c f } (frames { s with lock := s.lock.park t i c f }) := by
  refine (h.setLock _).perm ?_
  simp only [frames,park_parked,List.map_append,List.map_cons,List.map_nil]
  exact (List.perm_append_singleton f _).symm

theorem unpark_ledger (hi : Inv s) (h : Ledger s (frames s)) {p : Parked Line (Frame T)}
    (hp : p ∈ s.lock.parked) :
    Ledger { s with lock := s.lock.unpark p } (p.frame :: frames { s with lock := s.lock.unpark p }) := by
  refine (h.setLock _).perm ?_
  have hperm : s.lock.parked.Perm (p :: s.lock.parked.filter fun q => q.task ≠ p.task) := by
    have hnd : s.lock.parked.Nodup := hi.lock.tasks.of_map
    refine (List.perm_ext_iff_of_nodup hnd ?_).mpr fun q => ?_
    · exact List.nodup_cons.mpr ⟨by simp,hnd.filter _⟩
    · rw [List.mem_cons,List.mem_filter]
      constructor
      · intro hq
        by_cases ht : q.task = p.task
        · exact Or.inl (Count.eq_of_key hi.lock.tasks hq hp ht)
        · exact Or.inr ⟨hq,by simpa using ht⟩
      · rintro (rfl | hq)
        · exact hp
        · exact hq.1
  simpa [frames] using hperm.map Parked.frame

/-! ### The calls -/

theorem awaitReceipt_ledger (h : Ledger s (.receipt k position :: frames s))
    (hone : s.received < position → s.count = 1) :
    Ledger (awaitReceipt s t k position) (frames (awaitReceipt s t k position)) := by
  unfold awaitReceipt
  split
  · rename_i hc
    unfold Monitor.wait
    split
    · rename_i heq
      split at heq
      · cases heq
      · cases heq; exact park_ledger h _ _
    · exact withdraw_ledger h hc.2 (hone hc.2) _
  · split
    · rename_i hlt; exact withdraw_ledger h hlt (hone hlt) _
    · rename_i hlt; exact record_sent h (Or.inr (Nat.not_lt.mp hlt))

theorem Inv.nonePending_of_room (h : Inv s) (hlt : s.count < s.slots.length) : NonePending s := by
  intro p hp k position hf
  have := h.pending p hp k position hf
  have := h.size_one this.1
  omega

theorem put_ledger (hi : Inv s) (h : Ledger s (.room k v :: frames s)) :
    Ledger (put s t k v) (frames (put s t k v)) := by
  unfold put
  split
  · unfold Monitor.wait
    split
    · rename_i heq
      split at heq
      · cases heq
      · cases heq; exact park_ledger h _ _
    · exact record_refused h _
  · rename_i hc
    split
    · exact record_refused h _
    · rename_i hr
      have hlt : s.count < s.slots.length := by
        have := hi.count_le
        have : s.count ≠ s.slots.length := fun he => hc ⟨by simpa using hr,he⟩
        omega
      have hw := write_ledger h hlt fun j p hj => by
        obtain ⟨q,hq,hf⟩ := List.mem_map.mp hj
        exact hi.nonePending_of_room hlt q hq j p hf
      dsimp only
      split
      · rename_i h0
        refine awaitReceipt_ledger hw fun _ => ?_
        have := hi.size_one h0
        show s.count + 1 = 1
        omega
      · rename_i h0; exact record_sent hw (Or.inl h0)

theorem take_ledger (hi : Inv s) (h : Ledger s (frames s)) (l c e : Bool) :
    Ledger (take s t l c e) (frames (take s t l c e)) := by
  have hr : frames (removeHead s) = frames s := by unfold removeHead; split <;> rfl
  unfold take
  split
  · split
    · rw [hr]; exact removeHead_ledger hi h
    · unfold Monitor.wait
      split
      · rename_i heq
        split at heq
        · cases heq
        · cases heq
          obtain ⟨d,p,h⟩ := h
          exact park_ledger ⟨d,p,Books.receivers_iff.mpr h⟩ _ _
      · exact record_idle h (Or.inr rfl)
  · rw [hr]; exact removeHead_ledger hi h

theorem resumed_ledger (hi : Inv s) (h : Ledger s (frames s)) {p : Parked Line (Frame T)}
    (hp : p ∈ s.lock.parked) (e : Bool) :
    Ledger (resumed { s with lock := s.lock.unpark p } p e)
      (frames (resumed { s with lock := s.lock.unpark p } p e)) := by
  have hu := hi.unpark hp
  have hl := unpark_ledger hi h hp
  unfold resumed
  split
  · rename_i k v hf
    rw [hf] at hl
    split
    · exact record_refused hl _
    · exact put_ledger hu hl
  · rename_i k position hf
    rw [hf] at hl
    have hone : s.received < position → s.count = 1 := by
      intro hlt
      have := hi.pending p hp k position hf
      have := hi.size_one this.1
      have := hi.count_le
      omega
    split
    · rename_i hd; exact withdraw_ledger hl hd.2 (hone hd.2) _
    · exact awaitReceipt_ledger hl hone
  · rename_i l hf
    rw [hf] at hl
    obtain ⟨d,q,hl⟩ := hl
    have hl : Ledger { s with lock := s.lock.unpark p } _ := ⟨d,q,Books.receivers_iff.mp hl⟩
    split
    · exact record_idle hl (Or.inr rfl)
    · exact take_ledger hu hl _ _ _

theorem step_ledger (s : State T) (a : Action T) (s' : State T) (hi : Inv s) (h : Ledger s (frames s))
    (hs : step s a = some s') : Ledger s' (frames s') := by
  cases a with
  | send t v =>
    simp only [step] at hs
    split at hs
    · cases hs
    · cases hs
      obtain ⟨d,p,h⟩ := h
      exact put_ledger (hi.setSends (s.sends + 1)) ⟨d,p,h.call⟩
  | receive t l e =>
    simp only [step] at hs
    split at hs
    · cases hs
    · cases hs; exact take_ledger hi h _ _ _
  | receiveWaiting t =>
    simp only [step] at hs
    split at hs
    · cases hs
    · cases hs; exact take_ledger hi h _ _ _
  | resume t e =>
    simp only [step] at hs
    split at hs
    · cases hs
    · rename_i p hf; cases hs
      exact resumed_ledger hi h (find_some hf).1 e
  | addSender => cases hs; exact h
  | releaseSender =>
    simp only [step] at hs
    split at hs
    · cases hs; split <;> exact h
    · cases hs
  | releaseReceiver => cases hs; exact h
  | cancel t => cases hs; exact h
  | uncancel t =>
    simp only [step] at hs
    split at hs
    · cases hs
    · cases hs; exact h
  | interrupt w => cases hs; exact h

/-! ### Whole executions -/

def taken (s : State T) : List (ℕ × T) := (accepted s.log).take s.received

def queued (s : State T) : List (ℕ × T) := (accepted s.log).drop s.received

def Frame.waits (received : ℕ) : Frame T → Bool
  | .receipt _ position => decide (received < position)
  | _ => false

def Frame.handedOver (received k : ℕ) : Frame T → Bool
  | .receipt j position => decide (j = k) && decide (position ≤ received)
  | _ => false

/-- The values whose send succeeded, in the order they were put: the call returned, or its
value was received and it is to return. -/
def succeeded (s : State T) : List (ℕ × T) :=
  (puts s.log).filter fun kv =>
    decide (kv.1 ∈ sents s.log) || (frames s).any (Frame.handedOver s.received kv.1)

structure InOrder (s : State T) : Prop where
  received : gots s.log = slotsOf (taken s)
  order : taken s <+: succeeded s
  once : (numbers (puts s.log)).Nodup
  buffer : contents s = slotsOf (queued s)
  nothingLost : ∀ kv ∈ succeeded s, kv ∈ taken s ∨ kv ∈ queued s
  refused : ∀ k ∈ refusals s.log, k ∉ numbers (taken s) ∧ k ∉ numbers (queued s)
  bounded : 0 < s.capacity → (s.count : ℤ) ≤ s.capacity
  negative : s.capacity < 0 → s.count ≤ 1
  rendezvous : s.capacity = 0 → s.count ≤ (frames s).countP (Frame.waits s.received)

theorem handedOver_iff : (frames s).any (Frame.handedOver s.received k) = true ↔
    ∃ position ≤ s.received, .receipt k position ∈ frames s := by
  rw [List.any_eq_true]
  constructor
  · rintro ⟨f,hf,h⟩
    cases f with
    | receipt j position =>
      simp only [Frame.handedOver,Bool.and_eq_true,decide_eq_true_eq] at h
      obtain ⟨rfl,hle⟩ := h
      exact ⟨position,hle,hf⟩
    | room j v => cases h
    | receivers l => cases h
  · rintro ⟨position,hle,hf⟩
    exact ⟨_,hf,by simp [Frame.handedOver,hle]⟩

section Books
variable {done pending : List (ℕ × T)}

theorem taken_eq (h : Books (s.capacity ≠ 0) s.log s.received s.sends (contents s) L done pending) : taken s = done := by
  rw [taken,h.kept,← h.total,List.take_left]

theorem queued_eq (h : Books (s.capacity ≠ 0) s.log s.received s.sends (contents s) L done pending) : queued s = pending := by
  rw [queued,h.kept,← h.total,List.drop_left]

theorem succeeded_eq (h : Books (s.capacity ≠ 0) s.log s.received s.sends (contents s) (frames s) done pending) :
    succeeded s = (accepted s.log).filter fun kv =>
      decide (kv.1 ∈ sents s.log) || (frames s).any (Frame.handedOver s.received kv.1) := by
  rw [succeeded,accepted,List.filter_filter]
  refine List.filter_congr fun kv hkv => ?_
  by_cases hs : kv.1 ∈ sents s.log ∨ (frames s).any (Frame.handedOver s.received kv.1) = true
  · have hin : kv.1 ∈ numbers (done ++ pending) := by
      rcases hs with hs | hs
      · exact h.sent _ hs
      · obtain ⟨position,hle,hf⟩ := handedOver_iff.mp hs
        rw [numbers_append,List.mem_append]
        rcases (h.waits _ _ hf).2 with hd | ⟨-,u,hu⟩
        · exact Or.inl hd.2
        · exact Or.inr (mem_numbers.mpr ⟨u,List.mem_of_getLast? hu⟩)
    rw [← h.kept] at hin
    obtain ⟨u,hu⟩ := mem_numbers.mp hin
    have hnot : kv.1 ∉ withdrawals s.log := by simpa using (List.mem_filter.mp hu).2
    simp [hnot]
  · have hf : (decide (kv.1 ∈ sents s.log) || (frames s).any (Frame.handedOver s.received kv.1)) = false :=
      Bool.eq_false_iff.mpr fun hb => hs (by simpa using hb)
    rw [hf,Bool.false_and]

theorem inOrder_of_books (hi : Inv s)
    (h : Books (s.capacity ≠ 0) s.log s.received s.sends (contents s) (frames s) done pending) : InOrder s where
  received := by rw [taken_eq h,h.receipts]
  order := by
    have hall : done.filter (fun kv => decide (kv.1 ∈ sents s.log) ||
        (frames s).any (Frame.handedOver s.received kv.1)) = done := by
      refine List.filter_eq_self.mpr fun kv hkv => ?_
      rw [Bool.or_eq_true,decide_eq_true_eq,handedOver_iff]
      exact h.receivedBy kv hkv
    rw [taken_eq h,succeeded_eq h,h.kept,List.filter_append,hall]
    exact List.prefix_append done _
  once := h.once
  buffer := by rw [queued_eq h,h.queued]
  nothingLost kv hkv := by
    rw [succeeded_eq h,h.kept] at hkv
    rw [taken_eq h,queued_eq h]
    exact List.mem_append.mp (List.mem_filter.mp hkv).1
  refused k hk := by
    have := h.refused k hk
    rw [numbers_append,List.mem_append,not_or] at this
    rwa [taken_eq h,queued_eq h]
  bounded hpos := by
    have hle := hi.count_le
    have hsz := hi.size
    rw [places,if_neg (by omega)] at hsz
    omega
  negative hneg := by
    have hle := hi.count_le
    have hsz := hi.size
    rw [places,if_pos (by omega)] at hsz
    omega
  rendezvous h0 := by
    have hle := hi.count_le
    have hsz := hi.size_one h0
    rcases Nat.eq_zero_or_pos s.count with hz | hpos
    · omega
    · obtain ⟨kv,hkv⟩ : ∃ kv, kv ∈ pending := by
        refine List.exists_mem_of_length_pos ?_
        rw [h.pending_length,length_contents]; exact hpos
      have hw : ∃ position, s.received < position ∧ .receipt kv.1 position ∈ frames s := by
        exact (h.queuedBy kv hkv).resolve_left fun hb => hb.1 h0
      obtain ⟨position,hlt,hf⟩ := hw
      have : 0 < (frames s).countP (Frame.waits s.received) :=
        List.countP_pos_iff.mpr ⟨_,hf,by simpa [Frame.waits] using hlt⟩
      omega

end Books

/-! ### The capacity never changes -/

theorem awaitReceipt_capacity : (awaitReceipt s t k position).capacity = s.capacity := by
  unfold awaitReceipt
  split
  · split <;> rfl
  · split <;> rfl

theorem put_capacity : (put s t k v).capacity = s.capacity := by
  unfold put
  split
  · split <;> rfl
  · split
    · rfl
    · dsimp only
      split
      · exact awaitReceipt_capacity
      · rfl

theorem removeHead_capacity : (removeHead s).capacity = s.capacity := by
  unfold removeHead; split <;> rfl

theorem take_capacity (l c e : Bool) : (take s t l c e).capacity = s.capacity := by
  unfold take
  split
  · split
    · exact removeHead_capacity
    · split <;> rfl
  · exact removeHead_capacity

theorem resumed_capacity (p : Parked Line (Frame T)) (e : Bool) :
    (resumed s p e).capacity = s.capacity := by
  unfold resumed
  split
  · split
    · rfl
    · exact put_capacity
  · split
    · rfl
    · exact awaitReceipt_capacity
  · split
    · rfl
    · exact take_capacity _ _ _

theorem step_capacity (s : State T) (a : Action T) (s' : State T) (hs : step s a = some s') :
    s'.capacity = s.capacity := by
  cases a <;> simp only [step] at hs
  case resume t e =>
    split at hs
    · cases hs
    · cases hs; exact resumed_capacity _ _
  case send t v =>
    split at hs
    · cases hs
    · cases hs; exact put_capacity
  case receive t l e =>
    split at hs
    · cases hs
    · cases hs; exact take_capacity _ _ _
  case receiveWaiting t =>
    split at hs
    · cases hs
    · cases hs; exact take_capacity _ _ _
  case releaseSender =>
    split at hs
    · cases hs; split <;> rfl
    · cases hs
  case uncancel t =>
    split at hs
    · cases hs
    · cases hs; rfl
  all_goals cases hs; rfl

/-- Every state a channel of any capacity reaches has delivered in order and lost nothing. -/
theorem send_receive_inOrder (capacity : ℤ) (as : List (Action T)) (s : State T)
    (h : Exec.exec step (new capacity) as = some s) : s.capacity = capacity ∧ InOrder s := by
  have hstep : ∀ (s : State T) a s', (Inv s ∧ Ledger s (frames s) ∧ s.capacity = capacity) →
      step s a = some s' → Inv s' ∧ Ledger s' (frames s') ∧ s'.capacity = capacity :=
    fun s a s' h hs => ⟨step_inv s a s' h.1 hs,step_ledger s a s' h.1 h.2.1 hs,
      (step_capacity s a s' hs).trans h.2.2⟩
  obtain ⟨hi,⟨d,p,hb⟩,hc⟩ :=
    Exec.exec_invariant ⟨inv_new capacity,ledger_new capacity,rfl⟩ hstep h
  exact ⟨hc,inOrder_of_books hi hb⟩

private abbrev producer : Token := ⟨1,by decide⟩
private abbrev consumer : Token := ⟨2,by decide⟩

private abbrev handOver : List (Action ℕ) :=
  [.receive consumer false false,.send producer 7,.resume consumer false]

theorem send_receive_inOrder_handOver : ∃ s : State ℕ,
    Exec.exec step (new 0) handOver = some s ∧ s.capacity = 0 ∧ InOrder s :=
  ⟨_,rfl,send_receive_inOrder 0 handOver _ rfl⟩

/-- A channel of capacity -1 buffers one value, and a value handed over was received before
the call that sent it returns. -/
theorem send_receive_early :
    (∃ (as : List (Action ℕ)) (s : State ℕ), Exec.exec step (new (-1)) as = some s ∧
      ¬(s.count : ℤ) ≤ s.capacity) ∧
    ∃ (as : List (Action ℕ)) (s : State ℕ), Exec.exec step (new 0) as = some s ∧
      gots s.log = [some 7] ∧ sents s.log = [] :=
  ⟨⟨[.send producer 7],_,rfl,by decide⟩,⟨handOver,_,rfl,rfl,rfl⟩⟩

end Ens.Tasks.Channel
