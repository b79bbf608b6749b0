import Mathlib.Data.List.Nodup
import Mathlib.Data.List.Perm.Basic
import Ens.Tasks.Channel

/-! # The ledger of a channel's calls

What the calls of `put` and the receives did, read off the record of outcomes: the values
put in and not withdrawn are those received followed by those still queued. Each kind of
outcome has one rule that says how it moves the ledger on.
-/
set_option linter.all false
namespace Ens.Tasks.Channel
variable {T : Type}

def puts (log : List (Event T)) : List (ℕ × T) :=
  log.filterMap fun | .put k v => some (k,v) | _ => none

def withdrawals (log : List (Event T)) : List ℕ :=
  log.filterMap fun | .withdrew k => some k | _ => none

def sents (log : List (Event T)) : List ℕ :=
  log.filterMap fun | .sent k => some k | _ => none

def refusals (log : List (Event T)) : List ℕ :=
  log.filterMap fun | .refused k _ => some k | _ => none

def gots (log : List (Event T)) : List (Option T) :=
  log.filterMap fun | .got slot => some slot | _ => none

def accepted (log : List (Event T)) : List (ℕ × T) :=
  (puts log).filter fun kv => decide (kv.1 ∉ withdrawals log)

def numbers (kvs : List (ℕ × T)) : List ℕ := kvs.map Prod.fst

def slotsOf (kvs : List (ℕ × T)) : List (Option T) := kvs.map fun kv => some kv.2

def Frame.send : Frame T → Option ℕ
  | .room k _ => some k
  | .receipt k _ => some k
  | .receivers _ => none

/-- The ledger where the calls under way are at `frames`: `done` was received and `pending`
is queued. Only in a `buffered` channel may a call return while its value is queued. -/
structure Books (buffered : Prop) (log : List (Event T)) (received sends : ℕ) (queue : List (Option T))
    (frames : List (Frame T)) (done pending : List (ℕ × T)) : Prop where
  kept : accepted log = done ++ pending
  total : done.length = received
  receipts : gots log = slotsOf done
  queued : queue = slotsOf pending
  once : (numbers (puts log)).Nodup
  made : ∀ k, k ∈ numbers (puts log) ∨ k ∈ refusals log → k < sends
  sent : ∀ k ∈ sents log, k ∈ numbers (done ++ pending)
  refused : ∀ k ∈ refusals log, k ∉ numbers (done ++ pending)
  withdrawn : ∀ k ∈ withdrawals log, k ∈ numbers (puts log)
  calls : (frames.filterMap Frame.send).Nodup
  ready : ∀ k v, .room k v ∈ frames → k < sends ∧ k ∉ numbers (puts log) ∧ k ∉ refusals log
  receivedBy : ∀ kv ∈ done, kv.1 ∈ sents log ∨ ∃ position ≤ received, .receipt kv.1 position ∈ frames
  queuedBy : ∀ kv ∈ pending, buffered ∧ kv.1 ∈ sents log ∨
    ∃ position, received < position ∧ .receipt kv.1 position ∈ frames
  waits : ∀ k position, .receipt k position ∈ frames → k ∉ sents log ∧
    (position ≤ received ∧ k ∈ numbers done ∨
      position = received + pending.length ∧ ∃ v, pending.getLast? = some (k,v))

section Log
variable {log : List (Event T)} {k : ℕ} {v : T} {f : Failure}

theorem accepted_sublist (log : List (Event T)) : (accepted log).Sublist (puts log) := List.filter_sublist

@[simp] theorem numbers_append (a b : List (ℕ × T)) : numbers (a ++ b) = numbers a ++ numbers b :=
  List.map_append

@[simp] theorem numbers_cons (kv : ℕ × T) (a : List (ℕ × T)) : numbers (kv :: a) = kv.1 :: numbers a := rfl

@[simp] theorem numbers_nil : numbers ([] : List (ℕ × T)) = [] := rfl

theorem mem_numbers {kvs : List (ℕ × T)} : k ∈ numbers kvs ↔ ∃ v, (k,v) ∈ kvs := by
  simp [numbers]

theorem mem_numbers_of_mem {kvs : List (ℕ × T)} {kv : ℕ × T} (h : kv ∈ kvs) : kv.1 ∈ numbers kvs :=
  List.mem_map_of_mem h

@[simp] theorem slotsOf_append (a b : List (ℕ × T)) : slotsOf (a ++ b) = slotsOf a ++ slotsOf b :=
  List.map_append

@[simp] theorem length_slotsOf (a : List (ℕ × T)) : (slotsOf a).length = a.length := List.length_map _

theorem accepted_snoc (log : List (Event T)) (e : Event T) (hp : ∀ k v, e ≠ .put k v) (hw : ∀ k, e ≠ .withdrew k) :
    puts (log ++ [e]) = puts log ∧ withdrawals (log ++ [e]) = withdrawals log ∧
      accepted (log ++ [e]) = accepted log := by
  cases e with
  | put k v => exact absurd rfl (hp k v)
  | withdrew k => exact absurd rfl (hw k)
  | sent k => simp [accepted,puts,withdrawals]
  | refused k f => simp [accepted,puts,withdrawals]
  | got x => simp [accepted,puts,withdrawals]
  | gotNothing => simp [accepted,puts,withdrawals]
  | receiveCancelled => simp [accepted,puts,withdrawals]

theorem accepted_put (h : k ∉ withdrawals log) :
    accepted (log ++ [.put k v]) = accepted log ++ [(k,v)] := by
  have hp : puts (log ++ [.put k v]) = puts log ++ [(k,v)] := by simp [puts]
  have hw : withdrawals (log ++ [.put k v]) = withdrawals log := by simp [withdrawals]
  rw [accepted,hp,hw,List.filter_append,← accepted]
  simp [h]

theorem accepted_withdrew : accepted (log ++ [.withdrew k]) =
    (accepted log).filter fun kv => decide (kv.1 ≠ k) := by
  have hp : puts (log ++ [.withdrew k]) = puts log := by simp [puts]
  have hw : withdrawals (log ++ [.withdrew k]) = withdrawals log ++ [k] := by simp [withdrawals]
  rw [accepted,hp,hw,accepted,List.filter_filter]
  refine List.filter_congr fun kv _ => ?_
  simp only [List.mem_append,List.mem_singleton,not_or,ne_eq,Bool.decide_and]
  exact Bool.and_comm _ _

end Log

namespace Books
variable {buffered : Prop} {log : List (Event T)} {received sends : ℕ} {queue : List (Option T)}
  {frames : List (Frame T)} {done pending : List (ℕ × T)} {k position : ℕ} {v : T}

theorem start : Books buffered ([] : List (Event T)) 0 0 [] [] [] [] := by
  constructor <;> simp [accepted,puts,gots,sents,refusals,withdrawals,slotsOf]

theorem mem_puts (h : Books buffered log received sends queue frames done pending)
    (hk : k ∈ numbers (done ++ pending)) : k ∈ numbers (puts log) := by
  rw [← h.kept] at hk
  exact (accepted_sublist log).map Prod.fst |>.subset hk

theorem nodup (h : Books buffered log received sends queue frames done pending) :
    (numbers (done ++ pending)).Nodup := by
  rw [← h.kept]
  exact h.once.sublist ((accepted_sublist log).map Prod.fst)

theorem pending_length (h : Books buffered log received sends queue frames done pending) :
    pending.length = queue.length := by
  rw [h.queued,length_slotsOf]

theorem perm (h : Books buffered log received sends queue frames done pending) {frames' : List (Frame T)}
    (hf : frames.Perm frames') : Books buffered log received sends queue frames' done pending where
  kept := h.kept
  total := h.total
  receipts := h.receipts
  queued := h.queued
  once := h.once
  made := h.made
  sent := h.sent
  refused := h.refused
  withdrawn := h.withdrawn
  calls := (hf.filterMap Frame.send).nodup_iff.mp h.calls
  ready k v hk := h.ready k v (hf.mem_iff.mpr hk)
  receivedBy kv hkv := (h.receivedBy kv hkv).imp_right fun ⟨p,hp,hm⟩ => ⟨p,hp,hf.mem_iff.mp hm⟩
  queuedBy kv hkv := (h.queuedBy kv hkv).imp_right fun ⟨p,hp,hm⟩ => ⟨p,hp,hf.mem_iff.mp hm⟩
  waits k position hm := h.waits k position (hf.mem_iff.mpr hm)

theorem receivers_iff {l : Bool} : Books buffered log received sends queue (.receivers l :: frames) done pending ↔
    Books buffered log received sends queue frames done pending := by
  constructor <;> intro h
  · exact ⟨h.kept,h.total,h.receipts,h.queued,h.once,h.made,h.sent,h.refused,h.withdrawn,h.calls,
      fun k v hk => h.ready k v (List.mem_cons_of_mem _ hk),
      fun kv hkv => by simpa using h.receivedBy kv hkv,fun kv hkv => by simpa using h.queuedBy kv hkv,
      fun k position hm => h.waits k position (List.mem_cons_of_mem _ hm)⟩
  · exact ⟨h.kept,h.total,h.receipts,h.queued,h.once,h.made,h.sent,h.refused,h.withdrawn,h.calls,
      fun k v hk => h.ready k v (by simpa using hk),
      fun kv hkv => by simpa using h.receivedBy kv hkv,fun kv hkv => by simpa using h.queuedBy kv hkv,
      fun k position hm => h.waits k position (by simpa using hm)⟩

theorem apart {f : Frame T} (h : Books buffered log received sends queue (f :: frames) done pending)
    (hk : f.send = some k) {g : Frame T} (hg : g ∈ frames) : g.send ≠ some k := by
  have hc := h.calls
  rw [List.filterMap_cons_some hk,List.nodup_cons] at hc
  exact fun he => hc.1 (List.mem_filterMap.mpr ⟨g,hg,he⟩)

theorem calls_tail {f : Frame T} (h : Books buffered log received sends queue (f :: frames) done pending) :
    (frames.filterMap Frame.send).Nodup :=
  h.calls.sublist ((List.sublist_cons_self f frames).filterMap Frame.send)

theorem begun (h : Books buffered log received sends queue frames done pending) {f : Frame T} (hf : f ∈ frames)
    (hk : f.send = some k) : k < sends := by
  cases f with
  | room j v => cases hk; exact (h.ready k v hf).1
  | receipt j position =>
    cases hk
    refine h.made k (Or.inl (h.mem_puts ?_))
    rw [numbers_append,List.mem_append]
    rcases (h.waits k position hf).2 with hd | ⟨-,u,hu⟩
    · exact Or.inl hd.2
    · exact Or.inr (mem_numbers.mpr ⟨u,List.mem_of_getLast? hu⟩)
  | receivers l => cases hk

theorem call (h : Books buffered log received sends queue frames done pending) :
    Books buffered log received (sends + 1) queue (.room sends v :: frames) done pending where
  kept := h.kept
  total := h.total
  receipts := h.receipts
  queued := h.queued
  once := h.once
  made k hk := Nat.lt_succ_of_lt (h.made k hk)
  sent := h.sent
  refused := h.refused
  withdrawn := h.withdrawn
  calls := by
    rw [List.filterMap_cons_some (show (Frame.room sends v).send = some sends from rfl),List.nodup_cons]
    refine ⟨fun hm => ?_,h.calls⟩
    obtain ⟨g,hg,hs⟩ := List.mem_filterMap.mp hm
    exact Nat.lt_irrefl _ (h.begun hg hs)
  ready k u hk := by
    rcases List.mem_cons.mp hk with he | hk
    · cases he
      exact ⟨Nat.lt_succ_self _,fun hp => Nat.lt_irrefl _ (h.made _ (Or.inl hp)),
        fun hp => Nat.lt_irrefl _ (h.made _ (Or.inr hp))⟩
    · exact ⟨Nat.lt_succ_of_lt (h.ready k u hk).1,(h.ready k u hk).2⟩
  receivedBy kv hkv := by simpa using h.receivedBy kv hkv
  queuedBy kv hkv := by simpa using h.queuedBy kv hkv
  waits k position hm := h.waits k position (by simpa using hm)

/-- The value of a call goes in behind the others. No sender waits for the receipt of one
that is queued. -/
theorem write (h : Books buffered log received sends queue (.room k v :: frames) done pending)
    (hw : ∀ j p, .receipt j p ∈ frames → p ≤ received) :
    Books buffered (log ++ [.put k v]) received sends (queue ++ [some v])
      (.receipt k (received + (queue.length + 1)) :: frames) done (pending ++ [(k,v)]) := by
  obtain ⟨hlt,hp,hr⟩ := h.ready k v (List.mem_cons_self ..)
  have hwd : k ∉ withdrawals log := fun hk => hp (h.withdrawn k hk)
  have hputs : puts (log ++ [.put k v]) = puts log ++ [(k,v)] := by simp [puts]
  have hsents : sents (log ++ [.put k v]) = sents log := by simp [sents]
  have hrefs : refusals (log ++ [.put k v]) = refusals log := by simp [refusals]
  have hapart : ∀ j u, .room j u ∈ frames → j ≠ k := fun j u hj he =>
    h.apart rfl hj (by rw [he]; rfl)
  refine ⟨?_,h.total,?_,?_,?_,?_,?_,?_,?_,?_,?_,?_,?_,?_⟩
  · rw [accepted_put hwd,h.kept,List.append_assoc]
  · rw [← h.receipts]; simp [gots]
  · rw [h.queued]; simp [slotsOf]
  · rw [hputs,numbers_append,List.nodup_append]
    refine ⟨h.once,by simp,?_⟩
    rintro a ha b hb rfl
    obtain rfl : a = k := by simpa using hb
    exact hp ha
  · intro j hj
    rw [hputs,hrefs] at hj
    rcases hj with hj | hj
    · rw [numbers_append,List.mem_append] at hj
      rcases hj with hj | hj
      · exact h.made j (Or.inl hj)
      · obtain rfl := List.mem_singleton.mp hj; exact hlt
    · exact h.made j (Or.inr hj)
  · intro j hj
    rw [hsents] at hj
    rw [← List.append_assoc,numbers_append]
    exact List.mem_append_left _ (h.sent j hj)
  · intro j hj
    rw [hrefs] at hj
    rw [← List.append_assoc,numbers_append,List.mem_append,not_or]
    refine ⟨h.refused j hj,fun he => hr ?_⟩
    obtain rfl := List.mem_singleton.mp he
    exact hj
  · intro j hj
    rw [hputs,numbers_append]
    exact List.mem_append_left _ (h.withdrawn j (by simpa [withdrawals] using hj))
  · exact h.calls
  · intro j u hj
    rw [hputs,hrefs,numbers_append,List.mem_append,not_or]
    have hj : .room j u ∈ frames := by simpa using hj
    obtain ⟨h1,h2,h3⟩ := h.ready j u (List.mem_cons_of_mem _ hj)
    exact ⟨h1,⟨h2,by simpa using hapart j u hj⟩,h3⟩
  · intro kv hkv
    rw [hsents]
    exact (h.receivedBy kv hkv).imp_right fun ⟨p,hp,hm⟩ => ⟨p,hp,by simp at hm ⊢; exact Or.inr hm⟩
  · intro kv hkv
    rw [hsents]
    rcases List.mem_append.mp hkv with hkv | hkv
    · exact (h.queuedBy kv hkv).imp_right fun ⟨p,hp,hm⟩ => ⟨p,hp,by simp at hm ⊢; exact Or.inr hm⟩
    · obtain rfl := List.mem_singleton.mp hkv
      exact Or.inr ⟨_,by omega,List.mem_cons_self ..⟩
  · intro j p hm
    rw [hsents]
    rcases List.mem_cons.mp hm with he | hm
    · cases he
      refine ⟨fun hk => hp (h.mem_puts (h.sent _ hk)),Or.inr ⟨?_,v,by simp⟩⟩
      rw [List.length_append,h.pending_length]
      rfl
    · obtain ⟨hs,hj⟩ := h.waits j p (List.mem_cons_of_mem _ hm)
      have hle := hw j p hm
      refine ⟨hs,Or.inl ⟨hle,?_⟩⟩
      rcases hj with hj | ⟨he,u,hu⟩
      · exact hj.2
      · have hz : pending.length = 0 := by omega
        rw [List.eq_nil_of_length_eq_zero hz] at hu
        cases hu

theorem refuse (h : Books buffered log received sends queue (.room k v :: frames) done pending) (f : Failure) :
    Books buffered (log ++ [.refused k f]) received sends queue frames done pending := by
  obtain ⟨hlt,hp,-⟩ := h.ready k v (List.mem_cons_self ..)
  obtain ⟨hputs,hwd,hacc⟩ := accepted_snoc log (.refused k f) (by simp) (by simp)
  have hsents : sents (log ++ [.refused k f]) = sents log := by simp [sents]
  have hrefs : refusals (log ++ [.refused k f]) = refusals log ++ [k] := by simp [refusals]
  refine ⟨hacc.trans h.kept,h.total,?_,h.queued,hputs ▸ h.once,?_,hsents ▸ h.sent,?_,?_,
    h.calls_tail,?_,?_,?_,?_⟩
  · rw [← h.receipts]; simp [gots]
  · intro j hj
    rw [hputs,hrefs,List.mem_append,List.mem_singleton] at hj
    rcases hj with hj | hj | rfl
    · exact h.made j (Or.inl hj)
    · exact h.made j (Or.inr hj)
    · exact hlt
  · intro j hj
    rw [hrefs,List.mem_append,List.mem_singleton] at hj
    rcases hj with hj | rfl
    · exact h.refused j hj
    · exact fun hn => hp (h.mem_puts hn)
  · rw [hputs,hwd]; exact h.withdrawn
  · intro j u hj
    rw [hputs,hrefs,List.mem_append,List.mem_singleton,not_or]
    obtain ⟨h1,h2,h3⟩ := h.ready j u (List.mem_cons_of_mem _ hj)
    exact ⟨h1,h2,h3,fun he => h.apart rfl hj (by rw [he]; rfl)⟩
  · intro kv hkv
    rw [hsents]
    simpa using h.receivedBy kv hkv
  · intro kv hkv
    rw [hsents]
    simpa using h.queuedBy kv hkv
  · intro j p hm
    rw [hsents]
    exact h.waits j p (List.mem_cons_of_mem _ hm)

theorem sentBy (h : Books buffered log received sends queue (.receipt k position :: frames) done pending)
    (hb : buffered ∨ position ≤ received) :
    Books buffered (log ++ [.sent k]) received sends queue frames done pending := by
  obtain ⟨-,hin⟩ := h.waits k position (List.mem_cons_self ..)
  obtain ⟨hputs,hwd,hacc⟩ := accepted_snoc log (.sent k) (by simp) (by simp)
  have hsents : sents (log ++ [.sent k]) = sents log ++ [k] := by simp [sents]
  have hrefs : refusals (log ++ [.sent k]) = refusals log := by simp [refusals]
  -- a call that is still under way and is not this one stays under way
  have hother : ∀ j p, .receipt j p ∈ .receipt k position :: frames →
      j ∈ sents (log ++ [.sent k]) ∨ .receipt j p ∈ frames := by
    intro j p hm
    rcases List.mem_cons.mp hm with he | hm
    · cases he; exact Or.inl (by simp [hsents])
    · exact Or.inr hm
  refine ⟨hacc.trans h.kept,h.total,?_,h.queued,hputs ▸ h.once,?_,?_,hrefs ▸ h.refused,?_,
    h.calls_tail,?_,?_,?_,?_⟩
  · rw [← h.receipts]; simp [gots]
  · rw [hputs,hrefs]; exact h.made
  · intro j hj
    rw [hsents,List.mem_append,List.mem_singleton] at hj
    rcases hj with hj | rfl
    · exact h.sent j hj
    · rw [numbers_append,List.mem_append]
      rcases hin with hin | ⟨-,u,hu⟩
      · exact Or.inl hin.2
      · exact Or.inr (mem_numbers.mpr ⟨u,List.mem_of_getLast? hu⟩)
  · rw [hputs,hwd]; exact h.withdrawn
  · intro j u hj
    rw [hputs,hrefs]
    exact h.ready j u (List.mem_cons_of_mem _ hj)
  · intro kv hkv
    rcases h.receivedBy kv hkv with hs | ⟨p,hp,hm⟩
    · exact Or.inl (by simp [hsents,hs])
    · exact (hother _ _ hm).imp_right fun hm => ⟨p,hp,hm⟩
  · intro kv hkv
    rcases h.queuedBy kv hkv with ⟨hb,hs⟩ | ⟨p,hp,hm⟩
    · exact Or.inl ⟨hb,by simp [hsents,hs]⟩
    · rcases List.mem_cons.mp hm with he | hm
      · cases he
        exact Or.inl ⟨hb.resolve_right (Nat.not_le.mpr hp),by simp [hsents]⟩
      · exact Or.inr ⟨p,hp,hm⟩
  · intro j p hm
    obtain ⟨hs,hj⟩ := h.waits j p (List.mem_cons_of_mem _ hm)
    refine ⟨?_,hj⟩
    rw [hsents,List.mem_append,List.mem_singleton,not_or]
    exact ⟨hs,fun he => h.apart rfl hm (by rw [he]; rfl)⟩

/-- A call takes back the one value queued, which is its own, and throws. -/
theorem withdraw (h : Books buffered log received sends queue (.receipt k position :: frames) done pending)
    (hlt : received < position) (hone : queue.length = 1) (f : Failure) :
    Books buffered (log ++ [.withdrew k] ++ [.refused k f]) received sends [] frames done [] := by
  obtain ⟨-,hin⟩ := h.waits k position (List.mem_cons_self ..)
  obtain ⟨u,rfl⟩ : ∃ u, pending = [(k,u)] := by
    rcases hin with hin | ⟨-,u,hu⟩
    · omega
    · obtain ⟨kv,rfl⟩ := List.length_eq_one_iff.mp (h.pending_length.trans hone)
      exact ⟨u,by simpa using hu⟩
  obtain ⟨hputs',hwd',hacc'⟩ := accepted_snoc (log ++ [.withdrew k]) (.refused k f)
    (by simp) (by simp)
  have hputs : puts (log ++ [.withdrew k] ++ [.refused k f]) = puts log := by
    rw [hputs']; simp [puts]
  have hsents : sents (log ++ [.withdrew k] ++ [.refused k f]) = sents log := by simp [sents]
  have hrefs : refusals (log ++ [.withdrew k] ++ [.refused k f]) = refusals log ++ [k] := by
    simp [refusals]
  have hnd := h.nodup
  rw [numbers_append,List.nodup_append] at hnd
  have hk : k ∉ numbers done := fun hk => hnd.2.2 k hk k (by simp) rfl
  have hputk : k ∈ numbers (puts log) := h.mem_puts (by simp)
  refine ⟨?_,h.total,?_,rfl,hputs ▸ h.once,?_,?_,?_,?_,h.calls_tail,?_,?_,by simp,?_⟩
  · rw [hacc',accepted_withdrew,h.kept,List.filter_append]
    have : done.filter (fun kv => decide (kv.1 ≠ k)) = done :=
      List.filter_eq_self.mpr fun kv hkv => by
        simpa using fun he : kv.1 = k => hk (he ▸ mem_numbers_of_mem hkv)
    rw [this]
    simp
  · rw [← h.receipts]; simp [gots]
  · intro j hj
    rw [hputs,hrefs,List.mem_append,List.mem_singleton] at hj
    rcases hj with hj | hj | rfl
    · exact h.made j (Or.inl hj)
    · exact h.made j (Or.inr hj)
    · exact h.made j (Or.inl hputk)
  · intro j hj
    rw [hsents] at hj
    have := h.sent j hj
    rw [numbers_append,List.mem_append] at this
    rcases this with hd | hd
    · simpa using hd
    · obtain rfl : j = k := by simpa using hd
      exact absurd hj (h.waits j position (List.mem_cons_self ..)).1
  · intro j hj
    rw [hrefs,List.mem_append,List.mem_singleton] at hj
    rw [List.append_nil]
    rcases hj with hj | rfl
    · have := h.refused j hj
      rw [numbers_append,List.mem_append,not_or] at this
      exact this.1
    · exact hk
  · intro j hj
    rw [hputs]
    rw [hwd'] at hj
    rcases (by simpa [withdrawals] using hj : j ∈ withdrawals log ∨ j = k) with hj | rfl
    · exact h.withdrawn j hj
    · exact hputk
  · intro j u hj
    rw [hputs,hrefs,List.mem_append,List.mem_singleton,not_or]
    obtain ⟨h1,h2,h3⟩ := h.ready j u (List.mem_cons_of_mem _ hj)
    exact ⟨h1,h2,h3,fun he => h.apart rfl hj (by rw [he]; rfl)⟩
  · intro kv hkv
    rw [hsents]
    rcases h.receivedBy kv hkv with hs | ⟨p,hp,hm⟩
    · exact Or.inl hs
    · rcases List.mem_cons.mp hm with he | hm
      · injection he with he
        exact absurd (mem_numbers_of_mem hkv) (he ▸ hk)
      · exact Or.inr ⟨p,hp,hm⟩
  · intro j p hm
    rw [hsents]
    obtain ⟨hs,hj⟩ := h.waits j p (List.mem_cons_of_mem _ hm)
    refine ⟨hs,Or.inl ?_⟩
    rcases hj with hj | ⟨-,u',hu⟩
    · exact hj
    · have he : j = k := by
        have : (k,u) = (j,u') := by simpa using hu
        exact (congrArg Prod.fst this).symm
      exact absurd (by rw [he]; rfl) (h.apart rfl hm)

theorem take {slot : Option T} {rest : List (Option T)}
    (h : Books buffered log received sends (slot :: rest) frames done pending) :
    ∃ done' pending', Books buffered (log ++ [.got slot]) (received + 1) sends rest frames done' pending' := by
  obtain ⟨kv,pending,rfl⟩ : ∃ kv p, pending = kv :: p := by
    cases pending with
    | nil => exact absurd h.queued (by simp [slotsOf])
    | cons kv p => exact ⟨kv,p,rfl⟩
  have hq := h.queued
  rw [slotsOf,List.map_cons] at hq
  obtain ⟨rfl,rfl⟩ := List.cons.inj hq
  obtain ⟨hputs,hwd,hacc⟩ := accepted_snoc log (.got (some kv.2)) (by simp) (by simp)
  have hsents : sents (log ++ [.got (some kv.2)]) = sents log := by simp [sents]
  have hrefs : refusals (log ++ [.got (some kv.2)]) = refusals log := by simp [refusals]
  have happ : done ++ [kv] ++ pending = done ++ kv :: pending := by simp
  refine ⟨done ++ [kv],pending,?_,?_,?_,rfl,hputs ▸ h.once,?_,?_,?_,?_,h.calls,?_,?_,?_,?_⟩
  · rw [hacc,h.kept,happ]
  · rw [List.length_append,h.total]; rfl
  · have := h.receipts
    rw [slotsOf_append,← this]; simp [gots,slotsOf]
  · rw [hputs,hrefs]; exact h.made
  · rw [hsents,happ]; exact h.sent
  · rw [hrefs,happ]; exact h.refused
  · rw [hputs,hwd]; exact h.withdrawn
  · rw [hputs,hrefs]; exact h.ready
  · intro kv' hkv
    rw [hsents]
    rcases List.mem_append.mp hkv with hkv | hkv
    · exact (h.receivedBy kv' hkv).imp_right fun ⟨p,hp,hm⟩ => ⟨p,Nat.le_succ_of_le hp,hm⟩
    · obtain rfl := List.mem_singleton.mp hkv
      refine (h.queuedBy kv' (List.mem_cons_self ..)).imp And.right fun ⟨p,hp,hm⟩ => ⟨p,?_,hm⟩
      -- the head is the last queued, or some sender would wait for another value
      obtain ⟨-,hin⟩ := h.waits _ _ hm
      rcases hin with hin | ⟨hpos,u,hu⟩
      · omega
      · cases pending with
        | nil => simp only [List.length_cons,List.length_nil] at hpos; omega
        | cons kv'' rest =>
          have hnd := h.nodup
          rw [numbers_append,List.nodup_append] at hnd
          rw [List.getLast?_cons_cons] at hu
          have := mem_numbers.mpr ⟨u,List.mem_of_getLast? hu⟩
          exact absurd this (List.nodup_cons.mp hnd.2.1).1
  · intro kv' hkv
    rw [hsents]
    refine (h.queuedBy kv' (List.mem_cons_of_mem _ hkv)).imp_right fun ⟨p,hp,hm⟩ => ⟨p,?_,hm⟩
    obtain ⟨-,hin⟩ := h.waits _ _ hm
    rcases hin with hin | ⟨hpos,-⟩
    · omega
    · have := List.length_pos_of_mem hkv
      simp only [List.length_cons] at hpos; omega
  · intro j p hm
    rw [hsents]
    obtain ⟨hs,hin⟩ := h.waits j p hm
    refine ⟨hs,?_⟩
    rcases hin with ⟨hle,hd⟩ | ⟨hpos,u,hu⟩
    · exact Or.inl ⟨Nat.le_succ_of_le hle,by simp [hd]⟩
    · simp only [List.length_cons] at hpos
      cases pending with
      | nil =>
        refine Or.inl ⟨by simp at hpos; omega,?_⟩
        have : kv = (j,u) := by simpa using hu
        simp [this]
      | cons kv'' rest =>
        rw [List.getLast?_cons_cons] at hu
        exact Or.inr ⟨by rw [hpos]; omega,u,hu⟩

theorem idle (h : Books buffered log received sends queue frames done pending) {e : Event T}
    (he : e = .gotNothing ∨ e = .receiveCancelled) :
    Books buffered (log ++ [e]) received sends queue frames done pending := by
  have hk : puts (log ++ [e]) = puts log ∧ withdrawals (log ++ [e]) = withdrawals log ∧
      sents (log ++ [e]) = sents log ∧ refusals (log ++ [e]) = refusals log ∧
      gots (log ++ [e]) = gots log ∧ accepted (log ++ [e]) = accepted log := by
    rcases he with rfl | rfl <;>
      simp [puts,withdrawals,sents,refusals,gots,accepted]
  obtain ⟨h1,h2,h3,h4,h5,h6⟩ := hk
  refine ⟨?_,h.total,?_,h.queued,?_,?_,?_,?_,?_,h.calls,?_,?_,?_,?_⟩ <;>
    simp only [h1,h2,h3,h4,h5,h6]
  exacts [h.kept,h.receipts,h.once,h.made,h.sent,h.refused,h.withdrawn,h.ready,h.receivedBy,
    h.queuedBy,h.waits]

end Books

end Ens.Tasks.Channel
