import Ens.Packages.Sha256

/-! # Any number of parts

The state after some bytes is the same whichever parts they were fed in: the words of the whole blocks, and the rest in the block under
way. The digest pads the rest as the standard pads the message.
-/
set_option linter.all false
namespace Ens.Packages.Sha256
open SecureHash
variable {s : Sha256} {data message whole tail : List Byte} {b : Byte} {i : ℕ}

structure Holds (s : Sha256) (whole tail : List Byte) : Prop where
  divides : 64 ∣ whole.length
  words : s.words = absorb initial whole
  filled : s.filled = tail.length
  short : tail.length < 64
  block : s.block.take s.filled = tail
  block_length : s.block.length = 64
  schedule_length : s.schedule.length = 64

def HoldsAll (s : Sha256) (message : List Byte) : Prop := ∃ whole tail, message = whole ++ tail ∧ Holds s whole tail

theorem holds_new : HoldsAll new [] :=
  ⟨[],[],rfl,⟨by simp,by rw [absorb_short (by simp)]; rfl,rfl,by simp,rfl,by simp [new],by simp [new]⟩⟩

theorem compressBlock_eq (hs : s.schedule.length = 64) : s.compressBlock data i =
    { s with
      words := SecureHash.compress s.words ((data.drop i).take 64)
      schedule := SecureHash.schedule ((data.drop i).take 64) 48 } := by
  rw [compressBlock,compress_eq hs]

theorem compressBlock_fed : (s.compressBlock data i).fed = s.fed := by
  rw [compressBlock]

theorem closeBlock_fed : s.closeBlock.fed = s.fed := by
  rw [closeBlock,compressBlock_fed]

theorem keep_fed : (s.keep b).fed = s.fed := by
  rw [Sha256.keep]

theorem keep_filled : (s.keep b).filled = s.filled + 1 := by
  rw [Sha256.keep]

/-! ### Feeding -/

theorem take_keep (h : s.filled < s.block.length) : (s.keep b).block.take (s.filled + 1) = s.block.take s.filled ++ [b] := by
  rw [keep]
  have hlt : s.filled < (s.block.set s.filled b).length := by rw [List.length_set]; exact h
  rw [List.take_succ_eq_append_getElem hlt,List.take_set_of_le (Nat.le_refl _),List.getElem_set_self]

theorem Holds.keep (h : Holds s whole tail) (hs : tail.length < 63) : Holds (s.keep b) whole (tail ++ [b]) where
  divides := h.divides
  words := h.words
  filled := by rw [List.length_append,← h.filled]; rfl
  short := by rw [List.length_append,List.length_singleton]; omega
  block := by
    change (s.keep b).block.take (s.filled + 1) = _
    rw [take_keep (by rw [h.filled,h.block_length]; exact h.short),h.block]
  block_length := by rw [Sha256.keep,List.length_set,h.block_length]
  schedule_length := h.schedule_length

theorem Holds.full (h : Holds s whole tail) (hs : tail.length = 63) :
    Holds (s.keep b).closeBlock (whole ++ (tail ++ [b])) [] := by
  have hblock : (s.keep b).block = tail ++ [b] := by
    have htake := take_keep (s := s) (b := b) (by rw [h.filled,h.block_length]; exact h.short)
    rw [h.block,h.filled,hs,List.take_of_length_le] at htake
    · exact htake
    · rw [Sha256.keep,List.length_set,h.block_length]
  have hlen : (tail ++ [b]).length = 64 := by rw [List.length_append,hs]; rfl
  rw [closeBlock,compressBlock_eq (s := s.keep b) h.schedule_length,hblock,List.drop_zero,List.take_of_length_le (Nat.le_of_eq hlen)]
  refine ⟨?_,?_,rfl,by simp,rfl,?_,length_schedule _ _⟩
  · rw [List.length_append,hlen]
    exact Nat.dvd_add h.divides (Nat.dvd_refl 64)
  · rw [absorb_append h.divides,absorb_block hlen,← h.words]
    rfl
  · exact hblock ▸ hlen

theorem fillByte_holds (h : HoldsAll s message) (b : Byte) :
    HoldsAll (s.fillByte b) (message ++ [b]) ∧ (s.fillByte b).fed = s.fed := by
  obtain ⟨whole,tail,rfl,hh⟩ := h
  have hfilled := hh.filled
  have hshort := hh.short
  rw [fillByte,List.append_assoc,keep_filled]
  split_ifs with hfull
  · exact ⟨⟨_,[],(List.append_nil _).symm,hh.full (by omega)⟩,by rw [closeBlock_fed,keep_fed]⟩
  · exact ⟨⟨whole,_,rfl,hh.keep (by omega)⟩,keep_fed⟩

theorem take_succ_getD (hi : i < data.length) : data.take (i + 1) = data.take i ++ [data.getD i 0] := by
  rw [List.take_succ_eq_append_getElem hi,List.getD_eq_getElem _ _ hi]

theorem fillBlock_holds (h : HoldsAll s (message ++ data.take i)) (hi : i ≤ data.length) :
    HoldsAll (s.fillBlock data i).1 (message ++ data.take (s.fillBlock data i).2) ∧ (s.fillBlock data i).2 ≤ data.length ∧
      (s.fillBlock data i).1.fed = s.fed ∧ ((s.fillBlock data i).1.filled = 0 ∨ (s.fillBlock data i).2 = data.length) := by
  induction hn : data.length - i using Nat.strong_induction_on generalizing s i with
  | _ n ih =>
    rw [fillBlock]
    split_ifs with hc
    · obtain ⟨hb,hf⟩ := fillByte_holds h (data.getD i 0)
      rw [List.append_assoc,← take_succ_getD hc.2] at hb
      obtain ⟨h1,h2,h3,h4⟩ := ih (data.length - (i + 1)) (by omega) hb hc.2 rfl
      exact ⟨h1,h2,h3.trans hf,h4⟩
    · refine ⟨h,hi,rfl,?_⟩
      dsimp only
      omega

theorem takeBlocks_holds (h : HoldsAll s (message ++ data.take i)) (hi : i ≤ data.length) (hz : s.filled = 0 ∨ i = data.length) :
    HoldsAll (s.takeBlocks data i).1 (message ++ data.take (s.takeBlocks data i).2) ∧ (s.takeBlocks data i).1.fed = s.fed ∧
      (s.takeBlocks data i).2 ≤ data.length ∧ (s.takeBlocks data i).1.filled + (data.length - (s.takeBlocks data i).2) < 64 := by
  induction hn : data.length - i using Nat.strong_induction_on generalizing s i with
  | _ n ih =>
    rw [takeBlocks]
    split_ifs with hc
    · obtain ⟨whole,tail,hsplit,hh⟩ := h
      have hzero : s.filled = 0 := hz.resolve_right (by omega)
      obtain rfl : tail = [] := List.eq_nil_of_length_eq_zero (hh.filled.symm.trans hzero)
      have hlen : ((data.drop i).take 64).length = 64 := by
        rw [List.length_take,List.length_drop]
        omega
      rw [compressBlock_eq hh.schedule_length]
      refine ih (data.length - (i + 64)) (by omega) ⟨whole ++ (data.drop i).take 64,[],?_,?_⟩ (by omega) (.inl hzero) rfl
      · rw [List.take_add,← List.append_assoc,hsplit,List.append_nil,List.append_nil]
      · refine ⟨?_,?_,hzero,by simp,by simp [hzero],hh.block_length,length_schedule _ _⟩
        · rw [List.length_append,hlen]
          exact Nat.dvd_add hh.divides (Nat.dvd_refl 64)
        · rw [absorb_append hh.divides,absorb_block hlen,← hh.words]
    · obtain ⟨whole,tail,hsplit,hh⟩ := h
      have hshort := hh.short
      have hfilled := hh.filled
      refine ⟨⟨whole,tail,hsplit,hh⟩,rfl,hi,?_⟩
      dsimp only
      rcases hz with hz | rfl <;> omega

theorem keepRest_holds (h : HoldsAll s (message ++ data.take i)) (hi : i ≤ data.length) (hs : s.filled + (data.length - i) < 64) :
    HoldsAll (s.keepRest data i) (message ++ data) ∧ (s.keepRest data i).fed = s.fed := by
  induction hn : data.length - i using Nat.strong_induction_on generalizing s i with
  | _ n ih =>
    rw [keepRest]
    split_ifs with hc
    · obtain ⟨whole,tail,hsplit,hh⟩ := h
      have hfilled := hh.filled
      have hnext : (s.keep (data.getD i 0)).filled = s.filled + 1 := rfl
      refine ih (data.length - (i + 1)) (by omega) ⟨whole,_,?_,hh.keep (by omega)⟩ (by omega) (by omega) rfl
      rw [take_succ_getD hc,← List.append_assoc,hsplit,List.append_assoc]
    · rw [List.take_of_length_le (by omega)] at h
      exact ⟨h,rfl⟩

theorem update_holds (h : HoldsAll s message) (data : List Byte) :
    HoldsAll (s.update data) (message ++ data) ∧ (s.update data).fed = s.fed + BitVec.ofNat 64 data.length := by
  have h0 : HoldsAll { s with fed := s.fed + BitVec.ofNat 64 data.length } (message ++ data.take 0) := by
    obtain ⟨whole,tail,hsplit,hh⟩ := h
    exact ⟨whole,tail,by simpa using hsplit,⟨hh.divides,hh.words,hh.filled,hh.short,hh.block,hh.block_length,hh.schedule_length⟩⟩
  obtain ⟨h1,hle1,hf1,hz⟩ := fillBlock_holds h0 (Nat.zero_le _)
  obtain ⟨h2,hf2,hle2,hs2⟩ := takeBlocks_holds h1 hle1 hz
  obtain ⟨h3,hf3⟩ := keepRest_holds h2 hle2 hs2
  exact ⟨h3,hf3.trans (hf2.trans hf1)⟩

end Ens.Packages.Sha256

/-! ## Digests between the parts

The block under way is ended as the standard pads the message, with the length in it or in one more block. Nothing but the schedule is
written, which the next block overwrites.
-/
namespace Ens.Packages.Sha256
open SecureHash Slots
variable {s : Sha256} {data message whole tail : List Byte} {n start stop : ℕ}

/-! ### What the loops write -/

theorem zeros_eq (hle : start ≤ stop) (hs : stop ≤ data.length) :
    zeros data start stop = data.take start ++ List.replicate (stop - start) 0 ++ data.drop stop := by
  rw [zeros,foldl_set (fun _ => 0) data start (stop - start) (by omega),List.map_const',List.length_range,Nat.add_sub_of_le hle]

theorem writeBigEndian_eq {value : BitVec 64} (hs : start + 8 ≤ data.length) :
    writeBigEndian data start value = data.take start ++ bigEndian 8 value.toNat ++ data.drop (start + 8) := by
  rw [writeBigEndian,foldl_set (fun i => (value >>> ((7 - i) * 8)).setWidth 8) data start 8 hs,bigEndian]
  refine congrArg (fun l => data.take start ++ l ++ data.drop (start + 8)) (List.map_congr_left fun i _ => ?_)
  apply BitVec.eq_of_toNat_eq
  rw [BitVec.toNat_setWidth,BitVec.toNat_ushiftRight,Nat.shiftRight_eq_div_pow,BitVec.toNat_ofNat]

theorem resultOf_eq (words : Words) : resultOf words = output words := by
  rw [resultOf,output]
  refine congrArg (List.flatMap · _) (funext fun word => ?_)
  have hbyte : ∀ k, (word >>> k).setWidth 8 = BitVec.ofNat 8 (word.toNat / 2 ^ k) := fun k => by
    apply BitVec.eq_of_toNat_eq
    rw [BitVec.toNat_setWidth,BitVec.toNat_ushiftRight,Nat.shiftRight_eq_div_pow,BitVec.toNat_ofNat]
  have hlast : word.setWidth 8 = BitVec.ofNat 8 (word.toNat / 2 ^ 0) := by
    rw [← hbyte,BitVec.ushiftRight_zero]
  rw [hbyte,hbyte,hbyte,hlast]
  rfl

/-! ### The blocks that end a message -/

theorem Holds.endedBlock (h : Holds s whole tail) : s.endedBlock = tail ++ 0x80 :: List.replicate (63 - tail.length) 0 := by
  have hshort := h.short
  have hcopy : (List.range s.filled).foldl (fun tail i => tail.set i (s.block.getD i 0)) (List.replicate 64 0) =
      tail ++ 0 :: List.replicate (63 - tail.length) 0 := by
    have hset := foldl_set (fun i => s.block.getD i 0) (List.replicate 64 0) 0 s.filled (by rw [List.length_replicate,h.filled]; omega)
    simp only [Nat.zero_add,List.take_zero,List.nil_append] at hset
    rw [hset,map_getD_range 0 (by rw [h.block_length,h.filled]; omega),h.block,h.filled,List.drop_replicate,← List.replicate_succ,
      show 63 - tail.length + 1 = 64 - tail.length by omega]
  have hset : (tail ++ 0 :: List.replicate (63 - tail.length) 0).set tail.length (0x80 : Byte) =
      (tail ++ [0x80]) ++ List.replicate (63 - tail.length) 0 := by
    rw [List.set_append_right _ _ (Nat.le_refl _),Nat.sub_self,List.set_cons_zero,List.append_assoc,List.singleton_append]
  have hlen : ((tail ++ [(0x80 : Byte)]) ++ List.replicate (63 - tail.length) 0).length = 64 := by
    rw [List.length_append,List.length_append,List.length_replicate,List.length_singleton]
    omega
  have hpre : (tail ++ [(0x80 : Byte)]).length = tail.length + 1 := by rw [List.length_append,List.length_singleton]
  rw [Sha256.endedBlock,hcopy,h.filled,hset,zeros_eq (by omega) (Nat.le_of_eq hlen.symm),List.take_left' hpre,
    List.drop_eq_nil_of_le (Nat.le_of_eq hlen),List.append_nil,List.append_assoc,List.singleton_append,show 64 - (tail.length + 1) = 63 - tail.length by omega]

/-- A message that leaves room for its length ends in one block. -/
theorem padding_near (hn : n % 64 ≤ 55) : padding n = 0x80 :: (List.replicate (55 - n % 64) 0 ++ bigEndian 8 (8 * n)) := by
  rw [padding,show (119 - n % 64) % 64 = 55 - n % 64 by omega]

theorem padding_far (hn : 55 < n % 64) :
    padding n = (0x80 :: List.replicate (63 - n % 64) 0) ++ (List.replicate 56 0 ++ bigEndian 8 (8 * n)) := by
  rw [padding,show (119 - n % 64) % 64 = 63 - n % 64 + 56 by omega,List.replicate_add,List.append_assoc,List.cons_append]

theorem digest_eq (h : HoldsAll s message) (hf : (s.fed * 8).toNat = 8 * message.length) : s.digest.1 = sha256 message := by
  obtain ⟨whole,tail,rfl,hh⟩ := h
  have hshort := hh.short
  have hmod : (whole ++ tail).length % 64 = tail.length := by
    have hdvd := hh.divides
    rw [List.length_append]
    omega
  have hend := hh.endedBlock
  have hlen : s.endedBlock.length = 64 := by
    rw [hend,List.length_append,List.length_cons,List.length_replicate]
    omega
  rw [digest,sha256,List.append_assoc,absorb_append hh.divides,← hh.words,← resultOf_eq,hh.filled]
  dsimp only
  split_ifs with hc
  · have hblock : (tail ++ 0x80 :: List.replicate (63 - tail.length) 0).length = 64 := hend ▸ hlen
    have hzeros : zeros s.endedBlock 0 56 = List.replicate 56 0 ++ s.endedBlock.drop 56 := by
      rw [zeros_eq (Nat.zero_le _) (by omega)]
      rfl
    have hlast : writeBigEndian (zeros s.endedBlock 0 56) 56 (s.fed * 8) =
        List.replicate 56 0 ++ bigEndian 8 (8 * (whole ++ tail).length) := by
      rw [hzeros,writeBigEndian_eq (by rw [List.length_append,List.length_replicate,List.length_drop,hlen]),hf,
        List.take_left' List.length_replicate,List.drop_eq_nil_of_le (by simp [hlen]),List.append_nil]
    rw [padding_far (by omega),hmod,← List.append_assoc,absorb_cons hblock,absorb_block (by simp [length_bigEndian]),
      compress_eq hh.schedule_length,compress_eq (length_schedule _ _),hlast,hend,List.drop_zero,List.drop_zero,
      List.take_of_length_le (Nat.le_of_eq hblock),List.take_of_length_le (by simp [length_bigEndian])]
  · have hsplit : tail ++ 0x80 :: List.replicate (63 - tail.length) 0 =
        (tail ++ 0x80 :: List.replicate (55 - tail.length) 0) ++ List.replicate 8 0 := by
      rw [List.append_assoc,List.cons_append,← List.replicate_add,show 55 - tail.length + 8 = 63 - tail.length by omega]
    have hpre : (tail ++ (0x80 : Byte) :: List.replicate (55 - tail.length) 0).length = 56 := by
      rw [List.length_append,List.length_cons,List.length_replicate]
      omega
    have hlast : writeBigEndian s.endedBlock 56 (s.fed * 8) =
        tail ++ 0x80 :: (List.replicate (55 - tail.length) 0 ++ bigEndian 8 (8 * (whole ++ tail).length)) := by
      rw [writeBigEndian_eq (by rw [hlen]),hf,List.drop_eq_nil_of_le (by rw [hlen]),List.append_nil,hend,hsplit,List.take_left' hpre,
        List.append_assoc,List.cons_append]
    have hblock : (tail ++ 0x80 :: (List.replicate (55 - tail.length) 0 ++ bigEndian 8 (8 * (whole ++ tail).length))).length = 64 := by
      rw [← List.cons_append,← List.append_assoc,List.length_append,hpre,length_bigEndian]
    rw [padding_near (by omega),hmod,absorb_block hblock,compress_eq hh.schedule_length,hlast,List.drop_zero,
      List.take_of_length_le (Nat.le_of_eq hblock)]

theorem digest_holds (h : HoldsAll s message) : HoldsAll s.digest.2 message ∧ s.digest.2.fed = s.fed := by
  obtain ⟨whole,tail,hsplit,hh⟩ := h
  have hsched : s.digest.2.schedule.length = 64 := by
    rw [digest]
    split_ifs
    · rw [compress_eq hh.schedule_length]
      dsimp only
      rw [compress_eq (length_schedule _ _)]
      exact length_schedule _ _
    · dsimp only
      rw [compress_eq hh.schedule_length]
      exact length_schedule _ _
  rw [digest] at hsched ⊢
  exact ⟨⟨whole,tail,hsplit,⟨hh.divides,hh.words,hh.filled,hh.short,hh.block,hh.block_length,hsched⟩⟩,rfl⟩

/-! ### Runs -/

inductive Call
  | update (data : List Byte)
  | digest

def run (s : Sha256) : List Call → List (List Byte) × Sha256
  | [] => ([],s)
  | .update data :: calls => run (s.update data) calls
  | .digest :: calls => (s.digest.1 :: (run s.digest.2 calls).1,(run s.digest.2 calls).2)

def fedBy : List Call → List Byte
  | [] => []
  | .update data :: calls => data ++ fedBy calls
  | .digest :: calls => fedBy calls

theorem fedBy_append (before after : List Call) : fedBy (before ++ after) = fedBy before ++ fedBy after := by
  induction before with
  | nil => rfl
  | cons call before ih =>
    cases call with
    | update data => rw [List.cons_append,fedBy,fedBy,ih,List.append_assoc]
    | digest => exact ih

/-- The digests the standard gives, of the bytes up to each read. -/
def standard (message : List Byte) : List Call → List (List Byte)
  | [] => []
  | .update data :: calls => standard (message ++ data) calls
  | .digest :: calls => sha256 message :: standard message calls

/-- A state that was fed a message, and counted its bytes. -/
def Fed (s : Sha256) (message : List Byte) : Prop := HoldsAll s message ∧ s.fed = BitVec.ofNat 64 message.length

theorem Fed.toNat (h : Fed s message) (hm : message.length < 2 ^ 61) :
    s.fed.toNat = message.length ∧ (s.fed * 8).toNat = 8 * message.length := by
  have hfed : s.fed.toNat = message.length := by
    rw [h.2,BitVec.toNat_ofNat,Nat.mod_eq_of_lt (by omega)]
  refine ⟨hfed,?_⟩
  rw [BitVec.toNat_mul,hfed]
  change message.length * 8 % 2 ^ 64 = _
  rw [Nat.mod_eq_of_lt (by omega),Nat.mul_comm]

theorem Fed.update (h : Fed s message) (data : List Byte) : Fed (s.update data) (message ++ data) := by
  obtain ⟨hs,hf⟩ := update_holds h.1 data
  refine ⟨hs,?_⟩
  rw [hf,h.2,List.length_append,BitVec.ofNat_add]

theorem Fed.digest (h : Fed s message) : Fed s.digest.2 message :=
  ⟨(digest_holds h.1).1,(digest_holds h.1).2.trans h.2⟩

theorem run_fed (h : Fed s message) (calls : List Call) : Fed (run s calls).2 (message ++ fedBy calls) := by
  induction calls generalizing s message with
  | nil => simpa [fedBy,run] using h
  | cons call calls ih =>
    cases call with
    | update data => simpa [fedBy,run] using ih (h.update data)
    | digest => simpa [fedBy,run] using ih h.digest

theorem run_standard (h : Fed s message) (calls : List Call) (hm : (message ++ fedBy calls).length < 2 ^ 61) :
    (run s calls).1 = standard message calls := by
  induction calls generalizing s message with
  | nil => rfl
  | cons call calls ih =>
    cases call with
    | update data =>
      refine ih (h.update data) ?_
      rwa [List.append_assoc]
    | digest =>
      have hlt : message.length < 2 ^ 61 := by
        rw [List.length_append] at hm
        omega
      rw [run,standard,ih h.digest hm,digest_eq h.1 (h.toNat hlt).2]

theorem fed_new : Fed new [] := ⟨holds_new,rfl⟩

/-- However a message is cut into parts, and wherever digests are read between them, each one is the SHA-256 of the bytes so far. -/
theorem digests_standard (calls : List Call) (hm : (fedBy calls).length < 2 ^ 61) :
    (run new calls).1 = standard [] calls ∧
      (run new calls).2.fed.toNat = (fedBy calls).length ∧ ((run new calls).2.fed * 8).toNat = 8 * (fedBy calls).length ∧
      ∀ before after, calls = before ++ .digest :: after →
        (run (run new before).2.digest.2 after).1 = (run (run new before).2 after).1 := by
  have hfed := run_fed fed_new calls
  refine ⟨run_standard fed_new calls hm,(hfed.toNat hm).1,(hfed.toNat hm).2,?_⟩
  rintro before after rfl
  have hbefore := run_fed fed_new before
  rw [fedBy_append] at hm
  rw [run_standard hbefore.digest after hm,run_standard hbefore after hm]

theorem digests_abc : (run new [.update [97],.digest,.update [],.update [98,99],.digest]).1 = [sha256 [97],sha256 [97,98,99]] :=
  (digests_standard [.update [97],.digest,.update [],.update [98,99],.digest] (by decide)).1

end Ens.Packages.Sha256
