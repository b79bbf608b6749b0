import Ens.Tasks.ChannelInv

/-! # Which wakes a channel can lose

Every value in the buffer has a receiver on its way to it while others wait unwoken, and
every free place a sender on its way. `put`, `take` and `withdraw` each add one value or
one place and wake one task for it; a task cancelled on its way takes that wake with it.
-/
set_option linter.all false
namespace Ens.Tasks.Channel
open Monitor
variable {T : Type}

/-- A task waits on a line without having been woken. -/
def WaitsUnwoken (s : State T) (i : Line) : Prop :=
  ∃ p ∈ s.lock.parked, p.waiter ∈ (s.lock.lists i).waiters ∧ (s.lock.waiters p.waiter).woken = false

/-- A task was woken from a line and is on its way to look again. -/
def OnItsWay (s : State T) (i : Line) : Prop :=
  ∃ p ∈ s.lock.parked, p.list = i ∧ (s.lock.waiters p.waiter).woken = true ∧ s.lock.doomed p = false

instance (s : State T) (i : Line) : Decidable (WaitsUnwoken s i) :=
  inferInstanceAs (Decidable (∃ p ∈ s.lock.parked, _))

instance (s : State T) (i : Line) : Decidable (OnItsWay s i) :=
  inferInstanceAs (Decidable (∃ p ∈ s.lock.parked, _))

/-- Nobody waits for ever beside what it waits for. A channel of capacity zero has one place
for the value handed over, so its free room is a hand-over not begun; while one is under way,
a receiver and a sender that both wait have some woken task ahead of them. -/
structure NotStranded (s : State T) : Prop where
  value : 0 < s.count → WaitsUnwoken s .receivers → OnItsWay s .receivers
  room : s.count < s.slots.length → WaitsUnwoken s .room → OnItsWay s .room
  handOver : WaitsUnwoken s .receivers → WaitsUnwoken s .room →
    OnItsWay s .receivers ∨ OnItsWay s .room
  receipt : ∀ p ∈ s.lock.parked, ∀ k position, p.frame = .receipt k position →
    (s.lock.waiters p.waiter).woken = false → s.receiverReleased = false ∧ s.received < position
  closed : closed s = true → ¬WaitsUnwoken s .receivers
  released : s.receiverReleased = true → ¬WaitsUnwoken s .room

/-- The wake of a line goes to a task that is cancelled already, while others wait unwoken
and no more tasks are on their way than there was to go to. -/
def Wasted (s : State T) (i : Line) (supply : ℕ) : Prop :=
  s.lock.lookers i ≤ supply ∧ 1 < s.lock.unwoken i ∧
    ∃ p ∈ s.lock.parked, s.lock.next i = some p.waiter ∧ s.lock.doomed p = true

instance (s : State T) (i : Line) (supply : ℕ) : Decidable (Wasted s i supply) :=
  inferInstanceAs (Decidable (_ ∧ _ ∧ ∃ p ∈ s.lock.parked, _))

/-- `put` puts its value in, leaves it there, and loses the wake it gives a receiver. -/
def PutLosesWake (s : State T) (t : Token) : Prop :=
  s.receiverReleased = false ∧ s.count < s.slots.length ∧
    (s.capacity = 0 → s.lock.cancelled t = false) ∧ Wasted s .receivers s.count

/-- A removal from the buffer loses the wake it gives a sender. -/
def RemoveLosesWake (s : State T) : Prop :=
  0 < s.count ∧ Wasted s .room (s.slots.length - s.count)

/-- A parked task that goes on loses the wake it gives, with its own wait over. -/
def ResumeLosesWake (s : State T) (p : Parked Line (Frame T)) : Prop :=
  match p.frame with
  | .room _ _ => s.lock.doomed p = false ∧ PutLosesWake s p.task
  | .receipt _ position => s.lock.doomed p = true ∧ s.received < position ∧ RemoveLosesWake s
  | .receivers _ => s.lock.doomed p = false ∧ RemoveLosesWake s

/-- The step loses a wake while it is still needed: it gives the wake to a task cancelled
already, or cancels a task on its way. -/
def LosesWake (s : State T) : Action T → Prop
  | .send t _ => PutLosesWake s t
  | .receive _ _ _ => RemoveLosesWake s
  | .receiveWaiting _ => RemoveLosesWake s
  | .resume t _ => ∃ p ∈ s.lock.parked, p.task = t ∧
      ResumeLosesWake { s with lock := s.lock.unpark p } p
  | .cancel t => ∃ p ∈ s.lock.parked, p.task = t ∧ p.cancellable = true ∧
      (s.lock.looksAgain .receivers p = true ∧ 0 < s.lock.unwoken .receivers ∧
          s.lock.lookers .receivers ≤ s.count ∨
        s.lock.looksAgain .room p = true ∧ 0 < s.lock.unwoken .room ∧
          s.lock.lookers .room ≤ s.slots.length - s.count)
  | _ => False

instance (s : State T) (t : Token) : Decidable (PutLosesWake s t) :=
  inferInstanceAs (Decidable (_ ∧ _ ∧ _ ∧ _))

instance (s : State T) : Decidable (RemoveLosesWake s) :=
  inferInstanceAs (Decidable (_ ∧ _))

instance (s : State T) (p : Parked Line (Frame T)) : Decidable (ResumeLosesWake s p) :=
  match hf : p.frame with
  | .room _ _ => decidable_of_iff (s.lock.doomed p = false ∧ PutLosesWake s p.task)
      (by simp [ResumeLosesWake,hf])
  | .receipt _ position =>
    decidable_of_iff (s.lock.doomed p = true ∧ s.received < position ∧ RemoveLosesWake s)
      (by simp [ResumeLosesWake,hf])
  | .receivers _ => decidable_of_iff (s.lock.doomed p = false ∧ RemoveLosesWake s)
      (by simp [ResumeLosesWake,hf])

instance (s : State T) : (a : Action T) → Decidable (LosesWake s a)
  | .send t _ => inferInstanceAs (Decidable (PutLosesWake s t))
  | .receive _ _ _ => inferInstanceAs (Decidable (RemoveLosesWake s))
  | .receiveWaiting _ => inferInstanceAs (Decidable (RemoveLosesWake s))
  | .resume _ _ => inferInstanceAs (Decidable (∃ p ∈ s.lock.parked, _))
  | .cancel _ => inferInstanceAs (Decidable (∃ p ∈ s.lock.parked, _))
  | .addSender => inferInstanceAs (Decidable False)
  | .releaseSender => inferInstanceAs (Decidable False)
  | .releaseReceiver => inferInstanceAs (Decidable False)
  | .uncancel _ => inferInstanceAs (Decidable False)
  | .interrupt _ => inferInstanceAs (Decidable False)

structure CoveredBy (a b : ℕ) (s : State T) : Prop where
  values : 0 < s.lock.unwoken .receivers → s.count ≤ s.lock.lookers .receivers + a
  places : 0 < s.lock.unwoken .room → s.slots.length ≤ s.count + s.lock.lookers .room + b

abbrev Covered (s : State T) : Prop := CoveredBy 0 0 s

variable {s : State T} {a b : ℕ} {t : Token}

theorem waitsUnwoken_iff (h : Inv s) (i : Line) : WaitsUnwoken s i ↔ 0 < s.lock.unwoken i := by
  rw [WaitsUnwoken,unwoken,List.countP_pos_iff]
  constructor
  · rintro ⟨p,hp,hi,hw⟩
    exact ⟨p,hp,by simp [isUnwoken,h.lock.home p hp i hi,hw]⟩
  · rintro ⟨p,hp,hw⟩
    simp only [isUnwoken,Bool.and_eq_true,decide_eq_true_eq,Bool.not_eq_true'] at hw
    obtain ⟨rfl,hw⟩ := hw
    exact ⟨p,hp,(h.lock.stands_of_unwoken hp hw).1,hw⟩

theorem onItsWay_iff (s : State T) (i : Line) : OnItsWay s i ↔ 0 < s.lock.lookers i := by
  rw [OnItsWay,lookers,List.countP_pos_iff]
  simp [looksAgain,and_assoc]

theorem Covered.notStranded (h : Inv s) (hc : Covered s) : NotStranded s where
  value hpos hw := by
    rw [waitsUnwoken_iff h] at hw
    rw [onItsWay_iff]
    have := hc.values hw
    omega
  room hlt hw := by
    rw [waitsUnwoken_iff h] at hw
    rw [onItsWay_iff]
    have := hc.places hw
    omega
  handOver hr hs := by
    rw [waitsUnwoken_iff h] at hr hs
    rw [onItsWay_iff,onItsWay_iff]
    have := hc.values hr
    have := hc.places hs
    have := h.size_pos
    omega
  receipt := h.receipt
  closed hcl hw := by
    rw [waitsUnwoken_iff h,h.closed hcl] at hw
    exact absurd hw (Nat.lt_irrefl 0)
  released hrel hw := by
    rw [waitsUnwoken_iff h,h.released hrel] at hw
    exact absurd hw (Nat.lt_irrefl 0)

theorem covered_new (capacity : ℤ) : Covered (new capacity : State T) :=
  ⟨by simp [new,unwoken],by simp [new,unwoken]⟩

theorem CoveredBy.record (h : CoveredBy a b s) (e : Event T) : CoveredBy a b (record s e) :=
  ⟨h.values,h.places⟩

theorem CoveredBy.setLock (h : CoveredBy a b s) {m : Monitor Line (Frame T)}
    (hm : ∀ i, m.unwoken i ≤ s.lock.unwoken i ∧ s.lock.lookers i ≤ m.lookers i) :
    CoveredBy a b { s with lock := m } where
  values hw := by
    have := hm .receivers
    have := h.values (by dsimp only at hw; omega)
    dsimp only; omega
  places hw := by
    have := hm .room
    have := h.places (by dsimp only at hw; omega)
    dsimp only; omega

/-! ### One wake for one value or place -/

theorem unpark_covered (h : Inv s) (hc : Covered s) {p : Parked Line (Frame T)}
    (hp : p ∈ s.lock.parked) :
    CoveredBy (s.lock.looksAgain .receivers p).toNat (s.lock.looksAgain .room p).toNat
      { s with lock := s.lock.unpark p } where
  values hw := by
    have := unpark_unwoken h.lock hp .receivers
    have := unpark_lookers h.lock hp .receivers
    have := hc.values (by dsimp only at hw; omega)
    dsimp only; omega
  places hw := by
    have := unpark_unwoken h.lock hp .room
    have := unpark_lookers h.lock hp .room
    have := hc.places (by dsimp only at hw; omega)
    dsimp only; omega

theorem withdraw_covered (h : Inv s) (hc : Covered s) (hpos : 0 < s.count) (k : ℕ)
    (hw : ¬RemoveLosesWake s) : Covered (withdraw s k) where
  values hu := by
    have ho := wakeOne_other h.lock (show Line.room ≠ .receivers by decide)
    simp only [withdraw,record_lock,record_count] at hu ⊢
    rw [ho.1] at hu
    rw [ho.2]
    have := hc.values hu
    omega
  places hu := by
    have hs := wakeOne_supply h.lock (i := .room) (n := s.slots.length - s.count)
      (fun hu => by have := hc.places hu; omega) fun hx => hw ⟨hpos,hx⟩
    simp only [withdraw,record_lock,record_count,record_slots,List.length_set] at hu ⊢
    have := hs hu
    have := h.count_le
    omega

theorem write_withdraw_covered (h : Inv s) (hc : Covered s) (hlt : s.count < s.slots.length)
    (k : ℕ) (v : T) : Covered (withdraw (write s k v) k) := by
  have hw := write_inv h hlt k v
  have h₁ := fun i => wakeOne_mono h.lock .receivers i
  have h₂ := fun i => wakeOne_mono hw.lock .room i
  refine ⟨fun hu => ?_,fun hu => ?_⟩
  · have h1 := h₁ .receivers
    have h2 := h₂ .receivers
    simp only [withdraw,write,record_lock,record_count] at hu h2 ⊢
    have := hc.values (by omega)
    omega
  · have h1 := h₁ .room
    have h2 := h₂ .room
    simp only [withdraw,write,record_lock,record_count,record_slots,List.length_set] at hu h2 ⊢
    have := hc.places (by omega)
    omega

theorem write_covered (h : Inv s) (hc : CoveredBy 0 1 s) (k : ℕ) (v : T)
    (hw : ¬Wasted s .receivers s.count) : Covered (write s k v) where
  values hu := by
    have hs := wakeOne_supply h.lock (i := Line.receivers) (n := s.count) hc.values hw
    simp only [write,record_lock,record_count] at hu ⊢
    exact hs hu
  places hu := by
    have ho := wakeOne_other h.lock (show Line.receivers ≠ .room by decide)
    simp only [write,record_lock,record_count,record_slots,List.length_set] at hu ⊢
    rw [ho.1] at hu
    rw [ho.2]
    have := hc.places hu
    omega

theorem park_covered (h : Inv s) (hc : CoveredBy a b s) (f : Frame T) (c : Bool)
    (ha : a = 0 ∧ f.line ≠ .receivers ∨ s.count = 0)
    (hb : b = 0 ∧ f.line ≠ .room ∨ s.count = s.slots.length) :
    Covered { s with lock := s.lock.park t f.line c f } where
  values hu := by
    simp only [park_unwoken h.lock,park_lookers h.lock] at hu ⊢
    rcases ha with ⟨rfl,hne⟩ | hz
    · exact hc.values (by simpa [hne] using hu)
    · omega
  places hu := by
    simp only [park_unwoken h.lock,park_lookers h.lock] at hu ⊢
    rcases hb with ⟨rfl,hne⟩ | hz
    · exact hc.places (by simpa [hne] using hu)
    · omega

theorem removeHead_covered (h : Inv s) (hc : CoveredBy 1 0 s) (hw : ¬RemoveLosesWake s) :
    Covered (removeHead s) := by
  unfold removeHead
  split
  · rename_i hz
    exact CoveredBy.record ⟨fun _ => by omega,hc.places⟩ _
  · rename_i hz
    have hpos : 0 < s.count := by omega
    have hall := wakeAll_ok h.lock .receipt
    obtain ⟨hru,hrl,hrn⟩ := wakeAll_other h.lock (show Line.receipt ≠ .room by decide)
    obtain ⟨hvu,hvl,-⟩ := wakeAll_other h.lock (show Line.receipt ≠ .receivers by decide)
    have ho := wakeOne_other hall (show Line.room ≠ .receivers by decide)
    refine CoveredBy.record ⟨fun hu => ?_,fun hu => ?_⟩ _
    · dsimp only at hu ⊢
      rw [ho.1,hvu] at hu
      rw [ho.2,hvl]
      have := hc.values hu
      omega
    · have hs := wakeOne_supply hall (i := .room) (n := s.slots.length - s.count) ?_ ?_
      · have := hs hu
        have := h.count_le
        simp only [List.length_set]
        omega
      · rw [hru,hrl]
        exact fun hu => by have := hc.places hu; omega
      · rw [hru,hrl,hrn]
        rintro ⟨hle,hone,p,hp,hn,hd⟩
        exact hw ⟨hpos,hle,hone,p,hp,hn,hd⟩

/-! ### The calls -/

theorem awaitReceipt_covered (h : Inv s) (hc : Covered s) {k position : ℕ}
    (hpos : s.received < position → 0 < s.count) (hr : s.receiverReleased = true → ¬RemoveLosesWake s)
    (hcan : s.lock.cancelled t = false) : Covered (awaitReceipt s t k position) := by
  unfold awaitReceipt
  split
  · simp only [Monitor.wait,hcan,Bool.and_false,Bool.false_eq_true,↓reduceIte]
    exact park_covered h hc (.receipt k position) true (Or.inl ⟨rfl,by simp [Frame.line]⟩)
      (Or.inl ⟨rfl,by simp [Frame.line]⟩)
  · rename_i hx
    split
    · rename_i hlt
      have hrel : s.receiverReleased = true := by
        by_contra hf
        exact hx ⟨by simpa using hf,hlt⟩
      exact (withdraw_covered h hc (hpos hlt) k (hr hrel)).record _
    · exact hc.record _

theorem released_not_removeLosesWake (h : Inv s) (hr : s.receiverReleased = true) :
    ¬RemoveLosesWake s := by
  rintro ⟨-,-,hone,-⟩
  have := h.released hr
  omega

theorem put_covered (h : Inv s) (hc : CoveredBy 0 1 s) (hcan : s.lock.cancelled t = true → Covered s)
    (hw : ¬PutLosesWake s t) (k : ℕ) (v : T) : Covered (put s t k v) := by
  unfold put
  split
  · rename_i hfull
    unfold Monitor.wait
    split
    · rename_i heq
      split at heq
      · cases heq
      · cases heq
        exact park_covered h hc (.room k v) true (Or.inl ⟨rfl,by simp [Frame.line]⟩) (Or.inr hfull.2)
    · exact CoveredBy.record ⟨hc.values,fun _ => by omega⟩ _
  · rename_i hfull
    split
    · rename_i hr
      refine CoveredBy.record ⟨hc.values,fun hu => ?_⟩ _
      have := h.released hr
      omega
    · rename_i hr
      have hrf : s.receiverReleased = false := by simpa using hr
      have hlt : s.count < s.slots.length := by
        have := h.count_le
        have : s.count ≠ s.slots.length := fun he => hfull ⟨hrf,he⟩
        omega
      have hwi := write_inv h hlt k v
      dsimp only
      split
      · rename_i h0
        cases hcn : s.lock.cancelled t with
        | true =>
          have hcov := write_withdraw_covered h (hcan hcn) hlt k v
          have hwc : (write s k v).lock.cancelled t = true := hcn
          have hwr : (write s k v).receiverReleased = false := hrf
          have hwp : (write s k v).received < s.received + (s.count + 1) := by
            show s.received < _
            omega
          simp only [awaitReceipt,hwr,hwp,and_self,↓reduceIte,Monitor.wait,hwc,Bool.and_true]
          exact hcov.record _
        | false =>
          have hcov := write_covered h hc k v fun hx => hw ⟨hrf,hlt,fun _ => hcn,hx⟩
          exact awaitReceipt_covered hwi hcov (fun _ => Nat.succ_pos _)
            (fun hr' => absurd (hr'.symm.trans hrf) (by simp)) hcn
      · rename_i h0
        exact (write_covered h hc k v fun hx => hw ⟨hrf,hlt,fun he => absurd he h0,hx⟩).record _

theorem take_covered (h : Inv s) (hc : CoveredBy 1 0 s) (hw : ¬RemoveLosesWake s) (l c e : Bool) :
    Covered (take s t l c e) := by
  unfold take
  split
  · rename_i hz
    split
    · exact removeHead_covered h hc hw
    · unfold Monitor.wait
      split
      · rename_i heq
        split at heq
        · cases heq
        · cases heq
          exact park_covered h hc (.receivers l) c (Or.inr hz.1) (Or.inl ⟨rfl,by simp [Frame.line]⟩)
      · exact CoveredBy.record ⟨fun _ => by omega,hc.places⟩ _
  · exact removeHead_covered h hc hw

theorem CoveredBy.mono {a' b' : ℕ} (h : CoveredBy a b s) (ha : a ≤ a') (hb : b ≤ b') :
    CoveredBy a' b' s :=
  ⟨fun hu => by have := h.values hu; omega,fun hu => by have := h.places hu; omega⟩

theorem looksAgain_false {p : Parked Line (Frame T)} {i : Line}
    (hx : p.list ≠ i ∨ s.lock.doomed p = true) : s.lock.looksAgain i p = false := by
  rcases hx with hx | hx <;> simp [looksAgain,hx]

theorem resumed_covered (h : Inv s) (hc : Covered s) {p : Parked Line (Frame T)}
    (hp : p ∈ s.lock.parked) (hw : ¬ResumeLosesWake { s with lock := s.lock.unpark p } p) (e : Bool) :
    Covered (resumed { s with lock := s.lock.unpark p } p e) := by
  have hu := h.unpark hp
  have hcu := unpark_covered h hc hp
  have hdoom : (s.lock.unpark p).doomed p = s.lock.doomed p := rfl
  have hline := (h.lines p hp).1
  unfold resumed
  split
  · rename_i k v hf
    rw [hf] at hline
    have hr : s.lock.looksAgain .receivers p = false := looksAgain_false (Or.inl (by simp [hline,Frame.line]))
    rw [hr] at hcu
    split
    · rename_i hd
      rw [looksAgain_false (Or.inr (hdoom ▸ hd))] at hcu
      exact hcu.record _
    · rename_i hd
      have hcan : s.lock.cancelled p.task = false := by
        have hcc := (h.lines p hp).2 (by simp [hline,Frame.line])
        simpa [hdoom,Monitor.doomed,hcc] using hd
      refine put_covered hu (hcu.mono (Nat.le_refl _) (Bool.toNat_le _))
        (fun hx => absurd (hx.symm.trans hcan) (by simp)) (fun hx => hw ?_) k v
      simp only [ResumeLosesWake,hf]
      exact ⟨by simpa using hd,hx⟩
  · rename_i k position hf
    rw [hf] at hline
    have hr : s.lock.looksAgain .receivers p = false := looksAgain_false (Or.inl (by simp [hline,Frame.line]))
    have hs : s.lock.looksAgain .room p = false := looksAgain_false (Or.inl (by simp [hline,Frame.line]))
    rw [hr,hs] at hcu
    have hle := (h.pending p hp k position hf).2
    split
    · rename_i hd
      have hlt : s.received < position := hd.2
      refine (withdraw_covered hu hcu (show 0 < s.count by omega) k fun hx => hw ?_).record _
      simp only [ResumeLosesWake,hf]
      exact ⟨hd.1,hd.2,hx⟩
    · rename_i hd
      by_cases hlt : s.received < position
      · have hcan : s.lock.cancelled p.task = false := by
          have hcc := (h.lines p hp).2 (by simp [hline,Frame.line])
          have hd' : s.lock.doomed p = false := by
            by_contra hn
            exact hd ⟨by simpa [hdoom] using hn,hlt⟩
          simpa [Monitor.doomed,hcc] using hd'
        exact awaitReceipt_covered hu hcu (fun _ => show 0 < s.count by omega)
          (fun hr' => released_not_removeLosesWake hu hr') hcan
      · have hn : ¬({ s with lock := s.lock.unpark p } : State T).received < position := hlt
        simp only [awaitReceipt,hn,and_false,↓reduceIte]
        exact hcu.record _
  · rename_i l hf
    rw [hf] at hline
    have hs : s.lock.looksAgain .room p = false := looksAgain_false (Or.inl (by simp [hline,Frame.line]))
    rw [hs] at hcu
    split
    · rename_i hd
      rw [looksAgain_false (Or.inr (hdoom ▸ hd))] at hcu
      exact hcu.record _
    · rename_i hd
      refine take_covered hu (hcu.mono (Bool.toNat_le _) (Nat.le_refl _)) (fun hx => hw ?_) l _ e
      simp only [ResumeLosesWake,hf]
      exact ⟨by simpa using hd,hx⟩

theorem cancel_covered (h : Inv s) (hc : Covered s) (hw : ¬LosesWake s (.cancel t)) :
    Covered { s with lock := s.lock.cancel t true } := by
  by_cases ht : ∃ p ∈ s.lock.parked, p.task = t
  · obtain ⟨p,hp,rfl⟩ := ht
    have hl := fun i => cancel_lookers h.lock hp true i
    have hlast : ∀ i, s.lock.looksAgain i p = true →
        (s.lock.cancel p.task true).looksAgain i p = false → p.cancellable = true := by
      intro i h1 h2
      by_contra hf
      simp only [looksAgain,Monitor.doomed,Bool.not_eq_true _ |>.mp hf,Monitor.cancel,Bool.false_and] at h1 h2
      rw [h1] at h2; cases h2
    refine ⟨fun hu => ?_,fun hu => ?_⟩
    · have hv := hc.values hu
      have := hl .receivers
      dsimp only
      cases h1 : s.lock.looksAgain .receivers p <;>
        cases h2 : (s.lock.cancel p.task true).looksAgain .receivers p <;>
        simp only [h1,h2,Bool.toNat_true,Bool.toNat_false] at this
      · omega
      · omega
      · have : s.count < s.lock.lookers .receivers := by
          by_contra hn
          exact hw ⟨p,hp,rfl,hlast _ h1 h2,Or.inl ⟨h1,hu,by omega⟩⟩
        omega
      · omega
    · have hv := hc.places hu
      have := hl .room
      dsimp only
      cases h1 : s.lock.looksAgain .room p <;>
        cases h2 : (s.lock.cancel p.task true).looksAgain .room p <;>
        simp only [h1,h2,Bool.toNat_true,Bool.toNat_false] at this
      · omega
      · omega
      · have : s.slots.length - s.count < s.lock.lookers .room := by
          by_contra hn
          exact hw ⟨p,hp,rfl,hlast _ h1 h2,Or.inr ⟨h1,hu,by omega⟩⟩
        omega
      · omega
  · have habs : ∀ p ∈ s.lock.parked, p.task ≠ t := fun p hp he => ht ⟨p,hp,he⟩
    refine hc.setLock fun i => ⟨Nat.le_refl _,?_⟩
    rw [cancel_lookers_of_absent habs]

theorem step_covered (s : State T) (a : Action T) (s' : State T) (h : Inv s) (hc : Covered s)
    (hw : ¬LosesWake s a) (hs : step s a = some s') : Covered s' := by
  cases a with
  | send t v =>
    simp only [step] at hs
    split at hs
    · cases hs
    · cases hs
      have hc' : Covered { s with sends := s.sends + 1 } := ⟨hc.values,hc.places⟩
      exact put_covered (h.setSends (s.sends + 1)) (hc'.mono (Nat.le_refl _) (Nat.zero_le _))
        (fun _ => hc') hw _ _
  | receive t l e =>
    simp only [step] at hs
    split at hs
    · cases hs
    · cases hs; exact take_covered h (hc.mono (Nat.zero_le _) (Nat.le_refl _)) hw _ _ _
  | receiveWaiting t =>
    simp only [step] at hs
    split at hs
    · cases hs
    · cases hs; exact take_covered h (hc.mono (Nat.zero_le _) (Nat.le_refl _)) hw _ _ _
  | resume t e =>
    simp only [step] at hs
    split at hs
    · cases hs
    · rename_i p hf
      cases hs
      obtain ⟨hp,rfl⟩ := find_some hf
      exact resumed_covered h hc hp (fun hx => hw ⟨p,hp,rfl,hx⟩) e
  | addSender => cases hs; exact ⟨hc.values,hc.places⟩
  | releaseSender =>
    simp only [step] at hs
    split at hs
    · cases hs
      split
      · have := hc.setLock fun i => wakeAll_mono h.lock .receivers i
        exact ⟨this.values,this.places⟩
      · exact ⟨hc.values,hc.places⟩
    · cases hs
  | releaseReceiver =>
    cases hs
    have := hc.setLock fun i => wakeAll_mono h.lock .room i
    have := this.setLock fun i => wakeAll_mono (wakeAll_ok h.lock .room) .receipt i
    exact ⟨this.values,this.places⟩
  | cancel t => cases hs; exact cancel_covered h hc hw
  | uncancel t =>
    simp only [step] at hs
    split at hs
    · cases hs
    · rename_i hf
      cases hs
      refine hc.setLock fun i => ⟨Nat.le_refl _,?_⟩
      rw [cancel_lookers_of_absent (find_isSome_false hf)]
  | interrupt w => cases hs; exact hc.setLock fun i => interrupt_mono s.lock w i

/-! ### Whole executions -/

/-- An execution none of whose steps loses a wake strands nobody in any state it reaches,
for a channel of any capacity. -/
theorem send_receive_notStranded (capacity : ℤ) (as : List (Action T))
    (hc : Exec.StepsMeet step (fun s a => ¬LosesWake s a) (new capacity) as) :
    Exec.HoldsAlong step NotStranded (new capacity) as := by
  have hstep : ∀ (s : State T) a s', (Inv s ∧ Covered s) → ¬LosesWake s a →
      step s a = some s' → Inv s' ∧ Covered s' := fun s a s' h hw hs =>
    ⟨step_inv s a s' h.1 hs,step_covered s a s' h.1 h.2 hw hs⟩
  have h := Exec.holdsAlong_of_stepsMeet ⟨inv_new capacity,covered_new capacity⟩ hstep hc
  exact fun pre hpre u hu => (h pre hpre u hu).2.notStranded (h pre hpre u hu).1

private theorem first_ne : (2 : ℕ) ≠ 0 := by decide

private abbrev sender : Token := ⟨1,Nat.one_ne_zero⟩
private abbrev first : Token := ⟨2,first_ne⟩
private abbrev second : Token := ⟨3,by decide⟩

theorem send_receive_notStranded_woken : Exec.HoldsAlong step NotStranded (new 1)
    [.receive first false false,.receive second false false,.send sender 7,.resume first false] :=
  send_receive_notStranded 1 _
    (Exec.stepsMeet_cons (by decide) rfl (Exec.stepsMeet_cons (by decide) rfl
      (Exec.stepsMeet_cons (by decide) rfl (Exec.stepsMeet_cons (by decide) rfl
        Exec.stepsMeet_nil))))

/-- Two receivers wait, a value is sent, and the receiver it woke is cancelled before it
runs: the value stays in the buffer beside the other receiver, which nobody wakes. -/
theorem send_receive_strands : ∃ (as : List (Action ℕ)) (s : State ℕ),
    Exec.exec step (new 1) as = some s ∧ ¬NotStranded s :=
  ⟨[.receive first false false,.receive second false false,.send sender 7,.cancel first,
    .resume first false],_,rfl,fun h => absurd (h.value (by decide) (by decide)) (by decide)⟩

end Ens.Tasks.Channel
