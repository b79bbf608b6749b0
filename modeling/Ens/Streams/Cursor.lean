import Ens.Logic.Slots
import Ens.Streams.Buffered

/-! # What a call leaves

The bytes held and the bytes the source has left are what is still to be handed out. Taking bytes from the source into the buffer, late
answers and failures leave them as they are.
-/
set_option linter.all false
namespace Ens.Streams.Reader
open Slots
variable {E A B : Type} {r r' : Reader E} {bounded : Bool} {size fuel i : ℕ} {data : List ℕ}

theorem bind_ok {x : Call E A} {f : A → Call E B} {a : A} (h : x r = .ok a r') : (x >>= f) r = f a r' := by
  change EStateM.bind x f r = _
  rw [EStateM.bind,h]

theorem bind_error {x : Call E A} {f : A → Call E B} {e : Stop E} (h : x r = .error e r') : (x >>= f) r = .error e r' := by
  change EStateM.bind x f r = _
  rw [EStateM.bind,h]

def pending (r : Reader E) : List ℕ := r.heldBetween r.start r.stop

def rest (r : Reader E) : List ℕ := r.pending ++ r.source.left

structure Sound (r : Reader E) : Prop where
  start_le : r.start ≤ r.stop
  stop_le : r.stop ≤ r.held.length
  room : 0 < r.held.length
  ended : r.ended = true → r.source.left = []

theorem Sound.length_pending (h : r.Sound) : r.pending.length = r.stop - r.start := by
  have h1 := h.start_le
  have h2 := h.stop_le
  rw [pending,heldBetween,List.length_take,List.length_drop]
  omega

theorem sound_new (source : Source E) (capacity : ℤ) : (new source capacity).Sound where
  start_le := Nat.le_refl _
  stop_le := Nat.zero_le _
  room := by
    rw [new,List.length_replicate]
    split_ifs <;> omega
  ended := nofun

theorem rest_new (source : Source E) (capacity : ℤ) : (new source capacity).rest = source.left := by
  rw [rest,pending,new,heldBetween,Nat.sub_self,List.take_zero,List.nil_append]

/-! ### The source -/

theorem read_cases (s : Source E) (hs : 0 < size) : (∃ e, s.answers 0 = .failed e ∧ s.read size = (.error e,s.after 0)) ∨
    ∃ count, 0 < count ∧ count ≤ size ∧ s.read size = (.ok (s.left.take count),s.after count) := by
  rw [Source.read]
  cases s.answers 0 with
  | failed e => exact .inl ⟨e,rfl,rfl⟩
  | late => exact .inr ⟨min size 1,by omega,by omega,rfl⟩
  | chunk n => exact .inr ⟨min size (max 1 n),by omega,by omega,rfl⟩

theorem readWithin_cases (s : Source E) (size : ℕ) : s.readWithin size = (.ok none,s.after 0) ∨
    s.readWithin size = ((s.read size).1.map some,(s.read size).2) := by
  rw [Source.readWithin]
  cases s.answers 0 with
  | failed e => exact .inr rfl
  | late => exact .inl rfl
  | chunk n => exact .inr rfl

/-- What the source answers to a reader: bytes that it has then left out, nothing in time, or a failure. -/
inductive Supply (r : Reader E) (size : ℕ) (bounded : Bool) : EStateM.Result (Stop E) (Reader E) (Option (List ℕ)) → Prop
  | data (data : List ℕ) (source : Source E) (ended : Bool) : r.source.left = data ++ source.left → data.length ≤ size →
      (data = [] → r.source.left = []) → (ended = true → source.left = []) →
        (r.ended = true ∨ bounded = true ∨ r.source.read size = (.ok data,source)) →
          Supply r size bounded (.ok (some data) { r with source, ended })
  | late (source : Source E) : bounded = true → source.left = r.source.left → Supply r size bounded (.ok none { r with source })
  | failed (e : E) (source : Source E) : r.ended = false → r.source.answers 0 = .failed e → source.left = r.source.left →
      Supply r size bounded (.error (.source e) { r with source })

theorem waits_supply (hs : 0 < size) (hended : ¬r.ended = true) : Supply r size bounded (match (r.source.read size).1.map some with
    | .error e => .error (.source e) { r with source := (r.source.read size).2 }
    | .ok none => .ok none { r with source := (r.source.read size).2 }
    | .ok (some data) => .ok (some data) { r with source := (r.source.read size).2, ended := data.isEmpty }) := by
  rcases read_cases r.source hs with ⟨e,hanswer,hread⟩ | ⟨count,hpos,hle,hread⟩
  · rw [hread]
    exact .failed e _ (eq_false_of_ne_true hended) hanswer rfl
  · rw [hread]
    refine .data _ _ _ (List.take_append_drop count _).symm ((List.length_take_le _ _).trans hle) (fun hnil => ?_) (fun hempty => ?_)
      (.inr (.inr hread))
    · exact (List.take_eq_nil_iff.mp hnil).resolve_left (by omega)
    · rw [List.isEmpty_iff,List.take_eq_nil_iff] at hempty
      rw [Source.after,hempty.resolve_left (by omega),List.drop_nil]

theorem bytesFromSource_supply (h : r.Sound) (hs : 0 < size) (bounded : Bool) : Supply r size bounded (bytesFromSource size bounded r) := by
  rw [bytesFromSource]
  by_cases hended : r.ended = true
  · have hleft := h.ended hended
    rw [if_pos hended]
    exact .data [] r.source r.ended (List.nil_append _).symm (Nat.zero_le _) (fun _ => hleft) (fun _ => hleft) (.inl hended)
  · rw [if_neg hended]
    have hwaits := @waits_supply _ r bounded size hs hended
    split_ifs with hbounded
    · rcases readWithin_cases r.source size with hlate | hread
      · rw [hlate]
        exact .late _ ((Bool.and_eq_true _ _ ▸ hbounded : _ ∧ _).1) rfl
      · rw [hread]
        exact hwaits
    · exact hwaits

/-! ### The buffer -/

theorem written_eq {held data : List ℕ} {a : ℕ} (h : a + data.length ≤ held.length) :
    written held a data = held.take a ++ data ++ held.drop (a + data.length) := foldl_write 0 data held a h

theorem length_written {held data : List ℕ} {a : ℕ} (h : a + data.length ≤ held.length) : (written held a data).length = held.length := by
  rw [written_eq h,List.length_append,List.length_append,List.length_take,List.length_drop]
  omega

inductive Holding (r : Reader E) (bounded : Bool) : EStateM.Result (Stop E) (Reader E) (Option Bool) → Prop
  | held (r' : Reader E) : r'.Sound → r'.rest = r.rest → r'.held.length = r.held.length → r'.start < r'.stop →
      (r' = r ∨ r.start = r.stop ∧ (bounded = false → ∃ data, data ≠ [] ∧ r.source.read r.held.length = (.ok data,r'.source))) →
        Holding r bounded (.ok (some true) r')
  | ended (r' : Reader E) : r'.Sound → r.rest = [] → r'.rest = [] →
      (r.ended = true ∨ bounded = true ∨ ∃ source, r.source.read r.held.length = (.ok [],source)) → Holding r bounded (.ok (some false) r')
  | late (r' : Reader E) : bounded = true → r'.Sound → r'.rest = r.rest → Holding r bounded (.ok none r')
  | failed (e : E) (r' : Reader E) : r'.Sound → r'.rest = r.rest → r.start = r.stop → r.ended = false → r.source.answers 0 = .failed e →
      Holding r bounded (.error (.source e) r')

theorem Sound.rest_empty (h : r.start = r.stop) : r.rest = r.source.left := by
  rw [rest,pending,heldBetween,h,Nat.sub_self,List.take_zero,List.nil_append]

theorem holdsBytes_eq (r : Reader E) (bounded : Bool) : holdsBytes bounded r = if r.start < r.stop then .ok (some true) r
    else (do
      match ← bytesFromSource r.held.length bounded with
      | none => return none
      | some data =>
        modify fun r => { r with held := written r.held 0 data, stop := data.length }
        return some (decide (0 < data.length)) : Call E (Option Bool)) { r with start := 0, stop := 0 } := by
  rw [holdsBytes]
  change (if r.start < r.stop then _ else _ : Call E (Option Bool)) r = _
  split_ifs <;> rfl

theorem holdsBytes_holding (h : r.Sound) (bounded : Bool) : Holding r bounded (holdsBytes bounded r) := by
  rw [holdsBytes_eq]
  split_ifs with hlt
  · exact .held r h rfl rfl hlt (.inl rfl)
  · have heq : r.start = r.stop := by
      have hle := h.start_le
      omega
    have hrest := Sound.rest_empty heq
    have h0 : ({ r with start := 0, stop := 0 } : Reader E).Sound := ⟨Nat.le_refl _,Nat.zero_le _,h.room,h.ended⟩
    have hsupply := bytesFromSource_supply h0 h.room bounded
    generalize hanswer : bytesFromSource r.held.length bounded { r with start := 0, stop := 0 } = answer at hsupply
    cases hsupply with
    | data data source ended hleft hsize hnil hend hread =>
      rw [bind_ok hanswer]
      change Holding r bounded (.ok (some (decide (0 < data.length))) ⟨source,written r.held 0 data,0,data.length,ended⟩)
      have hfits : 0 + data.length ≤ r.held.length := by rwa [Nat.zero_add]
      have hpending : (⟨source,written r.held 0 data,0,data.length,ended⟩ : Reader E).pending = data := by
        rw [pending,heldBetween,List.drop_zero,Nat.sub_zero,written_eq hfits,List.take_zero,List.nil_append,List.take_left]
      have hrest' : (⟨source,written r.held 0 data,0,data.length,ended⟩ : Reader E).rest = r.rest := by
        rw [rest,hpending,hrest]
        exact hleft.symm
      have hlen := length_written hfits
      have hsound : (⟨source,written r.held 0 data,0,data.length,ended⟩ : Reader E).Sound :=
        ⟨Nat.zero_le _,by rwa [hlen],by rw [hlen]; exact h.room,hend⟩
      by_cases hd : data = []
      · subst hd
        have hempty : r.rest = [] := hrest.trans (hnil rfl)
        exact .ended _ hsound hempty (hrest'.trans hempty) (hread.imp_right (Or.imp_right fun hread => ⟨_,hread⟩))
      · have hpos : 0 < data.length := List.length_pos_iff.mpr hd
        rw [decide_eq_true hpos]
        refine .held _ hsound hrest' hlen hpos (.inr ⟨heq,fun hb => ⟨data,hd,?_⟩⟩)
        rcases hread with hended | hbounded | hread
        · have hnone := h.ended hended
          rw [hleft] at hnone
          exact absurd (List.append_eq_nil_iff.mp hnone).1 hd
        · cases hb.symm.trans hbounded
        · exact hread
    | late source hb hleft =>
      rw [bind_ok hanswer]
      refine .late _ hb ⟨Nat.le_refl _,Nat.zero_le _,h.room,fun he => hleft.trans (h.ended he)⟩ ?_
      rw [hrest]
      exact (Sound.rest_empty rfl).trans hleft
    | failed e source hended hanswers hleft =>
      rw [bind_error hanswer]
      refine .failed e _ ⟨Nat.le_refl _,Nat.zero_le _,h.room,fun he => hleft.trans (h.ended he)⟩ ?_ heq hended hanswers
      rw [hrest]
      exact (Sound.rest_empty rfl).trans hleft

inductive Filling (r : Reader E) (bounded : Bool) : EStateM.Result (Stop E) (Reader E) (Option ℕ) → Prop
  | more (data : List ℕ) (r' : Reader E) : r'.Sound → r.source.left = data ++ r'.source.left → r'.pending = r.pending ++ data →
      (data = [] → r.source.left = []) → Filling r bounded (.ok (some data.length) r')
  | late (r' : Reader E) : bounded = true → r'.Sound → r'.rest = r.rest → Filling r bounded (.ok none r')
  | failed (e : E) (r' : Reader E) : r'.Sound → r'.rest = r.rest → Filling r bounded (.error (.source e) r')

structure Roomy (r r' : Reader E) : Prop where
  sound : r'.Sound
  source : r'.source = r.source
  ended : r'.ended = r.ended
  pending : r'.pending = r.pending
  room : r'.stop < r'.held.length

theorem compacted_grown (h : r.Sound) : Roomy r (r.compacted.grown (r.stop - r.start)) := by
  have hstart := h.start_le
  have hstop := h.stop_le
  have hroom := h.room
  have hcompacted : r.compacted.Sound ∧ r.compacted.source = r.source ∧ r.compacted.ended = r.ended ∧ r.compacted.pending = r.pending ∧
      r.compacted.start = 0 ∧ r.compacted.stop = r.stop - r.start := by
    rw [compacted]
    split_ifs with hpos
    · have hmove := foldl_move 0 r.held r.start (r.stop - r.start) (by omega) hpos
      have hlen : ((r.held.drop r.start).take (r.stop - r.start)).length = r.stop - r.start := h.length_pending
      refine ⟨⟨Nat.zero_le _,?_,?_,h.ended⟩,rfl,rfl,?_,rfl,rfl⟩
      · dsimp only
        rw [hmove,List.length_append,hlen]
        omega
      · dsimp only
        rw [hmove,List.length_append,List.length_drop,hlen]
        omega
      · rw [pending,heldBetween,pending,heldBetween]
        dsimp only
        rw [hmove,List.drop_zero,Nat.sub_zero,List.take_left' hlen]
    · have hzero : r.start = 0 := by omega
      exact ⟨h,rfl,rfl,rfl,hzero,by omega⟩
  obtain ⟨hs,hsource,hended,hpending,h0,hkept⟩ := hcompacted
  rw [grown]
  split_ifs with hfull
  · have hstop' := hs.stop_le
    have hroom' := hs.room
    have hset := foldl_set (fun i => r.compacted.held.getD i 0) (List.replicate (r.compacted.held.length * 2) 0) 0 (r.stop - r.start)
      (by rw [List.length_replicate]; omega)
    simp only [Nat.zero_add,List.take_zero,List.nil_append] at hset
    rw [map_getD_range 0 (by omega)] at hset
    have hlen : (r.compacted.held.take (r.stop - r.start)).length = r.stop - r.start := by rw [List.length_take]; omega
    refine ⟨⟨hs.start_le,?_,?_,hs.ended⟩,hsource,hended,?_,?_⟩
    · dsimp only
      rw [hset,List.length_append,List.length_drop,List.length_replicate,hlen]
      omega
    · dsimp only
      rw [hset,List.length_append,List.length_drop,List.length_replicate,hlen]
      omega
    · rw [← hpending,pending,heldBetween,pending,heldBetween]
      dsimp only
      rw [h0,List.drop_zero,List.drop_zero,Nat.sub_zero,hkept,hset,List.take_left' hlen]
    · dsimp only
      rw [hset,List.length_append,List.length_drop,List.length_replicate,hlen]
      omega
  · have hstop' := hs.stop_le
    exact ⟨hs,hsource,hended,hpending,by omega⟩

theorem fillMore_eq (hr' : r.compacted.grown (r.stop - r.start) = r') : fillMore bounded r = (do
    match ← bytesFromSource (r'.held.length - r'.stop) bounded with
    | none => return none
    | some data =>
      modify fun r => { r with held := written r.held r.stop data, stop := r.stop + data.length }
      return some data.length : Call E (Option ℕ)) r' := by
  rw [← hr']
  rfl

theorem fillMore_filling (h : r.Sound) (bounded : Bool) : Filling r bounded (fillMore bounded r) := by
  have hroomy := compacted_grown h
  generalize hr' : r.compacted.grown (r.stop - r.start) = r' at hroomy
  have hget := @fillMore_eq _ _ _ bounded hr'
  have hs := hroomy.sound
  have hroom := hroomy.room
  have hsource := hroomy.source
  rw [hget]
  have hpos : 0 < r'.held.length - r'.stop := by omega
  have hsupply := bytesFromSource_supply hs hpos bounded
  generalize hanswer : bytesFromSource (r'.held.length - r'.stop) bounded r' = answer at hsupply
  have hstill : ∀ source : Source E, source.left = r'.source.left → ({ r' with source } : Reader E).Sound ∧ ({ r' with source } : Reader E).rest = r.rest :=
    fun source hleft => by
      refine ⟨⟨hs.start_le,hs.stop_le,hs.room,fun he => hleft.trans (hs.ended he)⟩,?_⟩
      change r'.pending ++ source.left = r.pending ++ r.source.left
      rw [hroomy.pending,hleft,hsource]
  cases hsupply with
  | data data source ended hleft hsize hnil hend hread =>
    rw [bind_ok hanswer]
    have hfits : r'.stop + data.length ≤ r'.held.length := by omega
    have hlen := length_written hfits
    have hstart := hs.start_le
    rw [hsource] at hleft hnil
    refine .more data ⟨source,written r'.held r'.stop data,r'.start,r'.stop + data.length,ended⟩
      ⟨by dsimp only; omega,by dsimp only; omega,by rw [hlen]; exact hs.room,hend⟩ hleft ?_ hnil
    rw [← hroomy.pending,pending,heldBetween,pending,heldBetween]
    dsimp only
    have htake : (r'.held.take r'.stop).length = r'.stop := by rw [List.length_take]; omega
    have hfront : ((r'.held.drop r'.start).take (r'.stop - r'.start)).length = r'.stop - r'.start := hs.length_pending
    rw [written_eq hfits,List.append_assoc,List.drop_append_of_le_length (by omega),List.drop_take,← List.append_assoc]
    exact List.take_left' (by rw [List.length_append,hfront]; omega)
  | late source hb hleft =>
    rw [bind_ok hanswer]
    exact .late _ hb (hstill source hleft).1 (hstill source hleft).2
  | failed e source hended hanswers hleft =>
    rw [bind_error hanswer]
    exact .failed e _ (hstill source hleft).1 (hstill source hleft).2

/-! ### Lines -/

def firstLine (bytes : List ℕ) : List ℕ := bytes.takeWhile (· ≠ 10)

def afterLine (bytes : List ℕ) : List ℕ := bytes.drop ((firstLine bytes).length + 1)

theorem firstLine_split {line behind : List ℕ} (h : 10 ∉ line) : firstLine (line ++ 10 :: behind) = line := by
  have hall : ∀ b ∈ line, decide (b ≠ 10) = true := fun b hb => decide_eq_true (ne_of_mem_of_not_mem hb h)
  rw [firstLine,List.takeWhile_append_of_pos hall]
  simp

theorem afterLine_split {line behind : List ℕ} (h : 10 ∉ line) : afterLine (line ++ 10 :: behind) = behind := by
  rw [afterLine,firstLine_split h,← List.drop_drop,List.drop_left]
  rfl

theorem firstLine_last {bytes : List ℕ} (h : 10 ∉ bytes) : firstLine bytes = bytes :=
  List.takeWhile_eq_self_iff.mpr fun _ hb => decide_eq_true (ne_of_mem_of_not_mem hb h)

theorem afterLine_last {bytes : List ℕ} (h : 10 ∉ bytes) : afterLine bytes = [] := by
  rw [afterLine,firstLine_last h]
  exact List.drop_eq_nil_of_le (Nat.le_succ _)

/-- The search for a line end that starts after bytes without one. -/
theorem newlineIndexFrom_cases {scanned : ℕ} (hs : scanned ≤ r.pending.length) (hnone : 10 ∉ r.pending.take scanned) :
    r.newlineIndexFrom (r.start + scanned) = none ∧ 10 ∉ r.pending ∨
      ∃ line behind, r.newlineIndexFrom (r.start + scanned) = some (r.start + line.length) ∧ r.pending = line ++ 10 :: behind ∧ 10 ∉ line := by
  have hdrop : r.heldBetween (r.start + scanned) r.stop = r.pending.drop scanned := by
    rw [pending,heldBetween,heldBetween,List.drop_take,List.drop_drop,Nat.sub_sub]
  have hsplit := List.take_append_drop scanned r.pending
  rw [newlineIndexFrom,hdrop]
  cases hfind : (r.pending.drop scanned).findIdx? (· = 10) with
  | none =>
    refine .inl ⟨rfl,fun hmem => ?_⟩
    rw [← hsplit] at hmem
    rcases List.mem_append.mp hmem with hfront | hback
    · exact hnone hfront
    · exact absurd (List.findIdx?_eq_none_iff.mp hfind 10 hback) (by decide)
  | some k =>
    obtain ⟨hk,hten,hbefore⟩ := List.findIdx?_eq_some_iff_getElem.mp hfind
    have hlen : ((r.pending.drop scanned).take k).length = k := by
      rw [List.length_take]
      omega
    have htaken : (r.pending.take scanned).length = scanned := by
      rw [List.length_take]
      omega
    refine .inr ⟨r.pending.take scanned ++ (r.pending.drop scanned).take k,(r.pending.drop scanned).drop (k + 1),?_,?_,fun hmem => ?_⟩
    · rw [Option.map_some,List.length_append,htaken,hlen,Nat.add_assoc]
    · have hcons : 10 :: (r.pending.drop scanned).drop (k + 1) = (r.pending.drop scanned).drop k := by
        rw [List.drop_eq_getElem_cons hk,of_decide_eq_true hten]
      rw [hcons,List.append_assoc,List.take_append_drop,hsplit]
    · rcases List.mem_append.mp hmem with hfront | hback
      · exact hnone hfront
      · obtain ⟨j,hj,hget⟩ := List.getElem_of_mem hback
        have hjk : j < k := hlen ▸ hj
        rw [List.getElem_take] at hget
        exact absurd (decide_eq_true hget) (hbefore j hjk)

inductive Lining (invalidAt : Encoding) (bounded : Bool) (bytes : List ℕ) : EStateM.Result (Stop E) (Reader E) (Option (List ℕ)) → Prop
  | line (r' : Reader E) : r'.Sound → bytes ≠ [] → r'.rest = afterLine bytes → invalidAt (withoutReturn (firstLine bytes)) = none →
      Lining invalidAt bounded bytes (.ok (some (withoutReturn (firstLine bytes))) r')
  | nothing (r' : Reader E) : (bounded = true ∨ bytes = []) → r'.Sound → r'.rest = bytes → Lining invalidAt bounded bytes (.ok none r')
  | failed (e : E) (r' : Reader E) : r'.Sound → r'.rest = bytes → Lining invalidAt bounded bytes (.error (.source e) r')
  | illFormed (offset : ℕ) (r' : Reader E) : r'.Sound → bytes ≠ [] → r'.rest = afterLine bytes →
      invalidAt (withoutReturn (firstLine bytes)) = some offset → Lining invalidAt bounded bytes (.error (.encoding offset) r')

variable {invalidAt : Encoding}

def lineText (invalidAt : Encoding) (line : List ℕ) : Call E (Option (List ℕ)) := do
  return some (← textOf invalidAt (withoutReturn line))

theorem lineText_lining {bytes : List ℕ} (h : r'.Sound) (hne : bytes ≠ []) (hrest : r'.rest = afterLine bytes) :
    Lining invalidAt bounded bytes (lineText invalidAt (firstLine bytes) r') := by
  rw [lineText]
  cases hvalid : invalidAt (withoutReturn (firstLine bytes)) with
  | none =>
    have htext : textOf invalidAt (withoutReturn (firstLine bytes)) r' = .ok (withoutReturn (firstLine bytes)) r' := by
      rw [textOf,hvalid]
      rfl
    rw [bind_ok htext]
    exact .line r' h hne hrest hvalid
  | some offset =>
    have htext : textOf invalidAt (withoutReturn (firstLine bytes)) r' = .error (.encoding offset) r' := by
      rw [textOf,hvalid]
      rfl
    rw [bind_error htext]
    exact .illFormed offset r' h hne hrest hvalid

theorem takeLine_lining {line behind : List ℕ} (h : r.Sound) (hline : r.pending = line ++ 10 :: behind) (hnone : 10 ∉ line) :
    Lining invalidAt bounded r.rest (takeLine invalidAt (r.start + line.length) r) := by
  have hstart := h.start_le
  have hlen := h.length_pending
  rw [hline,List.length_append,List.length_cons] at hlen
  have hrest : r.rest = line ++ 10 :: (behind ++ r.source.left) := by rw [rest,hline,List.append_assoc,List.cons_append]
  have hbetween : r.heldBetween r.start (r.start + line.length) = firstLine r.rest := by
    have htake : (r.held.drop r.start).take line.length = r.pending.take line.length := by
      rw [pending,heldBetween,List.take_take,Nat.min_eq_left (by omega)]
    rw [hrest,firstLine_split hnone,heldBetween,Nat.add_sub_cancel_left,htake,hline,List.take_left]
  have hget : takeLine invalidAt (r.start + line.length) r =
      lineText invalidAt (firstLine r.rest) { r with start := r.start + line.length + 1 } := by
    rw [← hbetween]
    rfl
  rw [hget]
  refine lineText_lining ⟨by dsimp only; omega,h.stop_le,h.room,h.ended⟩ (by rw [hrest]; simp) ?_
  rw [hrest,afterLine_split hnone,rest]
  have hbehind : ({ r with start := r.start + line.length + 1 } : Reader E).pending = behind := by
    have hdrop : ({ r with start := r.start + line.length + 1 } : Reader E).pending = r.pending.drop (line.length + 1) := by
      rw [pending,heldBetween,pending,heldBetween,List.drop_take,List.drop_drop,Nat.sub_sub,Nat.add_assoc]
    rw [hdrop,hline,← List.drop_drop,List.drop_left]
    rfl
  rw [hbehind]

theorem lineAcrossFills_eq (scanned : ℕ) : lineAcrossFills invalidAt bounded (fuel + 1) scanned r =
    (match r.newlineIndexFrom (r.start + scanned) with
    | some i => takeLine invalidAt i
    | none => do
      match ← fillMore bounded with
      | none => return none
      | some 0 =>
        let last ← get
        set { last with start := last.stop }
        return some (← textOf invalidAt (withoutReturn (last.heldBetween last.start last.stop)))
      | some _ => lineAcrossFills invalidAt bounded fuel (r.stop - r.start) : Call E (Option (List ℕ))) r := rfl

theorem lineAcrossFills_lining {scanned : ℕ} (h : r.Sound) (hne : r.pending ≠ []) (hs : scanned ≤ r.pending.length)
    (hnone : 10 ∉ r.pending.take scanned) (hfuel : r.source.left.length < fuel) :
    Lining invalidAt bounded r.rest (lineAcrossFills invalidAt bounded fuel scanned r) := by
  induction fuel generalizing r scanned with
  | zero => omega
  | succ fuel ih =>
    rw [lineAcrossFills_eq]
    rcases newlineIndexFrom_cases hs hnone with ⟨hfind,hno⟩ | ⟨line,behind,hfind,hline,hno⟩
    · rw [hfind]
      dsimp only
      have hfilling := fillMore_filling h bounded
      generalize hanswer : fillMore bounded r = answer at hfilling
      cases hfilling with
      | more data r' hsound hleft hpending hnil =>
        rw [bind_ok hanswer]
        have hrest : r'.rest = r.rest := by rw [rest,hpending,rest,hleft,List.append_assoc]
        cases data with
        | nil =>
          rw [List.append_nil] at hpending
          have hleft' : r'.source.left = [] := by rw [← List.nil_append r'.source.left,← hleft,hnil rfl]
          have hwhole : r'.pending = r.rest := by rw [← hrest,rest,hleft',List.append_nil]
          have hlast : 10 ∉ r.rest := by rwa [← hwhole,hpending]
          have htake : (do
              let last ← get
              set { last with start := last.stop }
              return some (← textOf invalidAt (withoutReturn (last.heldBetween last.start last.stop))) : Call E (Option (List ℕ))) r' =
                lineText invalidAt (firstLine r.rest) { r' with start := r'.stop } := by
            rw [firstLine_last hlast,← hwhole]
            rfl
          have hne' : r.rest ≠ [] := by rwa [← hwhole,hpending]
          have hafter : ({ r' with start := r'.stop } : Reader E).rest = afterLine r.rest := by
            rw [afterLine_last hlast,Sound.rest_empty rfl]
            exact hleft'
          have hsound' : ({ r' with start := r'.stop } : Reader E).Sound := ⟨Nat.le_refl _,hsound.stop_le,hsound.room,hsound.ended⟩
          have hlining : Lining invalidAt bounded r.rest (lineText invalidAt (firstLine r.rest) { r' with start := r'.stop }) :=
            lineText_lining hsound' hne' hafter
          rw [← htake] at hlining
          exact hlining
        | cons b data =>
          have hscanned : r.stop - r.start ≤ r'.pending.length := by
            rw [hpending,List.length_append,h.length_pending]
            omega
          have hfront : r'.pending.take (r.stop - r.start) = r.pending := by
            rw [hpending]
            exact List.take_left' h.length_pending
          have hless : r'.source.left.length < fuel := by
            have hlen := congrArg List.length hleft
            rw [List.length_append,List.length_cons] at hlen
            omega
          rw [← hrest]
          exact ih hsound (by rw [hpending]; simp) hscanned (by rwa [hfront]) hless
      | late r' hb hsound hrest =>
        rw [bind_ok hanswer]
        exact .nothing r' (.inl hb) hsound hrest
      | failed e r' hsound hrest =>
        rw [bind_error hanswer]
        exact .failed e r' hsound hrest
    · rw [hfind]
      exact takeLine_lining h hline hno

theorem lineFrom_eq (r' : Reader E) : (do
    let r ← get
    match r.newlineIndexFrom r.start with
    | none => lineAcrossFills invalidAt bounded fuel (r.stop - r.start)
    | some i => takeLine invalidAt i : Call E (Option (List ℕ))) r' = (match r'.newlineIndexFrom (r'.start + 0) with
    | none => lineAcrossFills invalidAt bounded fuel (r'.stop - r'.start)
    | some i => takeLine invalidAt i) r' := rfl

theorem lineBy_lining (h : r.Sound) (bounded : Bool) (hfuel : r.source.left.length < fuel) :
    Lining invalidAt bounded r.rest (lineBy invalidAt bounded fuel r) := by
  have hholding := holdsBytes_holding h bounded
  generalize hanswer : holdsBytes bounded r = answer at hholding
  rw [lineBy]
  cases hholding with
  | held r' hsound hrest hlen hlt hread =>
    rw [bind_ok hanswer]
    have hget := @lineFrom_eq _ bounded fuel invalidAt r'
    have hfuel' : r'.source.left.length < fuel := by
      rcases hread with rfl | ⟨heq,-⟩
      · exact hfuel
      · have hless := congrArg List.length (hrest.trans (Sound.rest_empty heq))
        rw [rest,List.length_append] at hless
        omega
    have hne : r'.pending ≠ [] := by
      rw [← List.length_pos_iff,hsound.length_pending]
      omega
    refine Eq.subst (motive := Lining invalidAt bounded r.rest) hget.symm ?_
    rw [← hrest]
    rcases newlineIndexFrom_cases (r := r') (Nat.zero_le _) (by simp) with ⟨hfind,hno⟩ | ⟨line,behind,hfind,hline,hno⟩
    · rw [hfind]
      refine lineAcrossFills_lining hsound hne (Nat.le_of_eq hsound.length_pending.symm) ?_ hfuel'
      rwa [← hsound.length_pending,List.take_length]
    · rw [hfind]
      exact takeLine_lining hsound hline hno
  | ended r' hsound hempty hrest hread =>
    rw [bind_ok hanswer]
    exact .nothing r' (.inr hempty) hsound (hrest.trans hempty.symm)
  | late r' hb hsound hrest =>
    rw [bind_ok hanswer]
    exact .nothing r' (.inl hb) hsound hrest
  | failed e r' hsound hrest heq hended hanswers =>
    rw [bind_error hanswer]
    exact .failed e r' hsound hrest

/-! ### Pieces -/

inductive Piece (size : ℕ) (bounded : Bool) (bytes : List ℕ) : EStateM.Result (Stop E) (Reader E) (Option (List ℕ)) → Prop
  | data (data : List ℕ) (r' : Reader E) : r'.Sound → bytes = data ++ r'.rest → data.length ≤ size → (data = [] → size = 0 ∨ bytes = []) →
      Piece size bounded bytes (.ok (some data) r')
  | late (r' : Reader E) : bounded = true → r'.Sound → r'.rest = bytes → Piece size bounded bytes (.ok none r')
  | failed (e : E) (r' : Reader E) : r'.Sound → r'.rest = bytes → Piece size bounded bytes (.error (.source e) r')

theorem readBy_eq (hpos : 0 < size) : readBy size bounded r =
    (if r.start = r.stop ∧ r.held.length ≤ size then bytesFromSource size bounded
    else do
      match ← holdsBytes bounded with
      | none => return none
      | some false => return some []
      | some true =>
        let r ← get
        let count := min (r.stop - r.start) size
        set { r with start := r.start + count }
        return some (r.heldBetween r.start (r.start + count)) : Call E (Option (List ℕ))) r := by
  rw [readBy,if_neg (by omega)]
  rfl

theorem readBy_piece (h : r.Sound) (size : ℕ) (bounded : Bool) : Piece size bounded r.rest (readBy size bounded r) := by
  rcases Nat.eq_zero_or_pos size with rfl | hpos
  · exact .data [] r h (List.nil_append _).symm (Nat.le_refl _) fun _ => .inl rfl
  · rw [readBy_eq hpos]
    split_ifs with hdirect
    · -- The buffer is empty, so the bytes go past it.
      have hrest := Sound.rest_empty hdirect.1
      have hsupply := bytesFromSource_supply h hpos bounded
      generalize bytesFromSource size bounded r = answer at hsupply
      cases hsupply with
      | data data source ended hleft hsize hnil hend hread =>
        refine .data data _ ⟨h.start_le,h.stop_le,h.room,hend⟩ ?_ hsize fun hd => .inr (hrest.trans (hnil hd))
        rw [hrest,hleft]
        exact congrArg (data ++ ·) (Sound.rest_empty (r := { r with source, ended }) hdirect.1).symm
      | late source hb hleft =>
        refine .late _ hb ⟨h.start_le,h.stop_le,h.room,fun he => hleft.trans (h.ended he)⟩ ?_
        exact congrArg (r.pending ++ ·) hleft
      | failed e source hended hanswers hleft =>
        refine .failed e _ ⟨h.start_le,h.stop_le,h.room,fun he => hleft.trans (h.ended he)⟩ ?_
        exact congrArg (r.pending ++ ·) hleft
    · have hholding := holdsBytes_holding h bounded
      generalize hanswer : holdsBytes bounded r = answer at hholding
      cases hholding with
      | held r' hsound hrest hlen hlt hread =>
        rw [bind_ok hanswer]
        have hstop := hsound.stop_le
        have hcount : r'.heldBetween r'.start (r'.start + min (r'.stop - r'.start) size) = r'.pending.take (min (r'.stop - r'.start) size) := by
          rw [pending,heldBetween,heldBetween,List.take_take,Nat.add_sub_cancel_left,Nat.min_eq_left (Nat.min_le_left _ _)]
        have hdrop : ({ r' with start := r'.start + min (r'.stop - r'.start) size } : Reader E).pending =
            r'.pending.drop (min (r'.stop - r'.start) size) := by
          rw [pending,heldBetween,pending,heldBetween,List.drop_take,List.drop_drop,Nat.sub_sub]
        have hpending := hsound.length_pending
        refine .data (r'.heldBetween r'.start (r'.start + min (r'.stop - r'.start) size))
          { r' with start := r'.start + min (r'.stop - r'.start) size } ⟨by dsimp only; omega,hstop,hsound.room,hsound.ended⟩ ?_ ?_ ?_
        · have hrest' : ({ r' with start := r'.start + min (r'.stop - r'.start) size } : Reader E).rest =
              r'.pending.drop (min (r'.stop - r'.start) size) ++ r'.source.left := by rw [rest,hdrop]
          rw [hcount,hrest',← List.append_assoc,List.take_append_drop,← hrest,rest]
        · rw [hcount,List.length_take]
          omega
        · intro hnil
          rw [hcount,List.take_eq_nil_iff,← List.length_eq_zero_iff] at hnil
          omega
      | ended r' hsound hempty hrest hread =>
        rw [bind_ok hanswer]
        exact .data [] r' hsound (hempty.trans hrest.symm) (Nat.zero_le _) fun _ => .inr hempty
      | late r' hb hsound hrest =>
        rw [bind_ok hanswer]
        exact .late r' hb hsound hrest
      | failed e r' hsound hrest heq hended hanswers =>
        rw [bind_error hanswer]
        exact .failed e r' hsound hrest

/-! ### Everything -/

/-- The source gives the rest of its stream to calls with buffers of this size. -/
inductive Drains (size : ℕ) : Source E → Prop
  | ends {s s' : Source E} : s.read size = (.ok [],s') → Drains size s
  | more {s s' : Source E} {data : List ℕ} : data ≠ [] → s.read size = (.ok data,s') → Drains size s' → Drains size s

theorem Drains.not_failed {s : Source E} {e : E} (h : Drains size s) : s.answers 0 ≠ .failed e := by
  intro ha
  cases h with
  | ends hread =>
    rw [Source.read,ha] at hread
    cases hread
  | more _ hread _ =>
    rw [Source.read,ha] at hread
    cases hread

theorem readAll_drains (h : r.Sound) (hdrains : r.ended = true ∨ Drains r.held.length r.source) (hfuel : r.rest.length < fuel)
    (collected : List ℕ) : ∃ r', readAll fuel collected r = .ok (collected ++ r.rest) r' ∧ r'.Sound ∧ r'.rest = [] := by
  induction fuel generalizing r collected with
  | zero => omega
  | succ fuel ih =>
    have hholding := holdsBytes_holding h false
    generalize hanswer : holdsBytes false r = answer at hholding
    rw [readAll]
    cases hholding with
    | held r' hsound hrest hlen hlt hread =>
      rw [bind_ok hanswer]
      change ∃ r'', readAll fuel (collected ++ r'.pending) { r' with start := r'.stop } = _ ∧ _
      have hleft : ({ r' with start := r'.stop } : Reader E).rest = r'.source.left := Sound.rest_empty rfl
      have hpos : 0 < r'.pending.length := by
        rw [hsound.length_pending]
        omega
      have hdrains' : r'.ended = true ∨ Drains r'.held.length r'.source := by
        rcases hread with rfl | ⟨heq,hread⟩
        · exact hdrains
        · obtain ⟨data,hd,hread⟩ := hread rfl
          rcases hdrains with hended | hdrains
          · have hnone := hrest.trans ((Sound.rest_empty heq).trans (h.ended hended))
            rw [rest,List.append_eq_nil_iff] at hnone
            rw [hnone.1] at hpos
            exact absurd hpos (Nat.lt_irrefl 0)
          · rw [hlen]
            cases hdrains with
            | ends hends =>
              cases hread.symm.trans hends
              exact absurd rfl hd
            | more _ hmore hdrains =>
              cases hread.symm.trans hmore
              exact .inr hdrains
      have hless : ({ r' with start := r'.stop } : Reader E).rest.length < fuel := by
        have hwhole := congrArg List.length hrest
        rw [rest,List.length_append] at hwhole
        rw [hleft]
        omega
      have htaken : ({ r' with start := r'.stop } : Reader E).Sound := ⟨Nat.le_refl _,hsound.stop_le,hsound.room,hsound.ended⟩
      obtain ⟨r'',hall,hsound'',hnone⟩ := ih htaken hdrains' hless (collected ++ r'.pending)
      refine ⟨r'',?_,hsound'',hnone⟩
      rw [hall,hleft,List.append_assoc,← rest,hrest]
    | ended r' hsound hempty hrest hread =>
      rw [bind_ok hanswer,hempty,List.append_nil]
      exact ⟨r',rfl,hsound,hrest⟩
    | late r' hb hsound hrest => cases hb
    | failed e r' hsound hrest heq hended hanswers =>
      rcases hdrains with hended' | hdrains
      · cases hended.symm.trans hended'
      · exact absurd hanswers hdrains.not_failed

/-- A source that fails at once leaves everything as it is. -/
theorem readAll_fails {e : E} (h : r.Sound) (heq : r.start = r.stop) (hended : r.ended = false) (ha : r.source.answers 0 = .failed e)
    (hfuel : 0 < fuel) (collected : List ℕ) : ∃ r', readAll fuel collected r = .error (.source e) r' ∧ r'.Sound ∧ r'.rest = r.rest := by
  obtain ⟨fuel,rfl⟩ : ∃ n, fuel = n + 1 := ⟨fuel - 1,by omega⟩
  have hholding := holdsBytes_holding h false
  generalize hanswer : holdsBytes false r = answer at hholding
  have hread : r.source.read r.held.length = (.error e,r.source.after 0) := by rw [Source.read,ha]
  rw [readAll]
  cases hholding with
  | held r' hsound hrest hlen hlt hread' =>
    rcases hread' with rfl | ⟨-,hread'⟩
    · omega
    · obtain ⟨data,-,hread'⟩ := hread' rfl
      cases hread.symm.trans hread'
  | ended r' hsound hempty hrest hread' =>
    rcases hread' with hended' | hb | ⟨source,hread'⟩
    · cases hended.symm.trans hended'
    · cases hb
    · cases hread.symm.trans hread'
  | late r' hb hsound hrest => cases hb
  | failed e' r' hsound hrest _ _ hanswers =>
    rw [bind_error hanswer]
    cases ha.symm.trans hanswers
    exact ⟨r',rfl,hsound,hrest⟩

end Ens.Streams.Reader
