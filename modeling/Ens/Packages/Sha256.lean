import Ens.Logic.SecureHash
import Ens.Logic.Slots

/-! # Streaming SHA-256

The message is fed in parts. A part block is held until it is full, and reading the digest pads a copy of it, so that the state is left
as it was.
-/
namespace Ens.Packages
open SecureHash

/-- The words of the blocks so far, the bytes of the block under way, how many it has, how many were fed, and the schedule that every
block overwrites. -/
structure Sha256 where
  words : Words
  block : List Byte
  filled : ℕ
  fed : BitVec 64
  schedule : List Word

namespace Sha256

def startingWords : Words :=
  ⟨0x6a09e667,0xbb67ae85,0x3c6ef372,0xa54ff53a,0x510e527f,0x9b05688c,0x1f83d9ab,0x5be0cd19⟩

def roundConstants : List Word := [
  0x428a2f98,0x71374491,0xb5c0fbcf,0xe9b5dba5,0x3956c25b,0x59f111f1,0x923f82a4,0xab1c5ed5,
  0xd807aa98,0x12835b01,0x243185be,0x550c7dc3,0x72be5d74,0x80deb1fe,0x9bdc06a7,0xc19bf174,
  0xe49b69c1,0xefbe4786,0x0fc19dc6,0x240ca1cc,0x2de92c6f,0x4a7484aa,0x5cb0a9dc,0x76f988da,
  0x983e5152,0xa831c66d,0xb00327c8,0xbf597fc7,0xc6e00bf3,0xd5a79147,0x06ca6351,0x14292967,
  0x27b70a85,0x2e1b2138,0x4d2c6dfc,0x53380d13,0x650a7354,0x766a0abb,0x81c2c92e,0x92722c85,
  0xa2bfe8a1,0xa81a664b,0xc24b8b70,0xc76c51a3,0xd192e819,0xd6990624,0xf40e3585,0x106aa070,
  0x19a4c116,0x1e376c08,0x2748774c,0x34b0bcb5,0x391c0cb3,0x4ed8aa4a,0x5b9cca4f,0x682e6ff3,
  0x748f82ee,0x78a5636f,0x84c87814,0x8cc70208,0x90befffa,0xa4506ceb,0xbef9a3f7,0xc67178f2]

def new : Sha256 := ⟨startingWords,List.replicate 64 0,0,0,List.replicate 64 0⟩

def rotatedRight (value : Word) (bits : ℕ) : Word := value >>> bits ||| value <<< (32 - bits)

def wordAt (data : List Byte) (i : ℕ) : Word :=
  (data.getD i 0).setWidth 32 <<< 24 ||| (data.getD (i + 1) 0).setWidth 32 <<< 16 ||| (data.getD (i + 2) 0).setWidth 32 <<< 8 |||
    (data.getD (i + 3) 0).setWidth 32

/-! ### Compression -/

def readWords (schedule : List Word) (data : List Byte) (start : ℕ) : List Word :=
  (List.range 16).foldl (fun schedule i => schedule.set i (wordAt data (start + i * 4))) schedule

def mixedWord (schedule : List Word) (i : ℕ) : Word :=
  let early := schedule.getD (i - 15) 0
  let late := schedule.getD (i - 2) 0
  let mixEarly := rotatedRight early 7 ^^^ rotatedRight early 18 ^^^ early >>> 3
  let mixLate := rotatedRight late 17 ^^^ rotatedRight late 19 ^^^ late >>> 10
  schedule.getD (i - 16) 0 + mixEarly + schedule.getD (i - 7) 0 + mixLate

def expandWords (schedule : List Word) : List Word :=
  (List.range 48).foldl (fun schedule i => schedule.set (16 + i) (mixedWord schedule (16 + i))) schedule

def round (schedule : List Word) (v : Words) (i : ℕ) : Words :=
  let spreadLate := rotatedRight v.e 6 ^^^ rotatedRight v.e 11 ^^^ rotatedRight v.e 25
  let choice := (v.e &&& v.f) ^^^ (~~~v.e &&& v.g)
  let carried := v.h + spreadLate + choice + roundConstants.getD i 0 + schedule.getD i 0
  let spreadEarly := rotatedRight v.a 2 ^^^ rotatedRight v.a 13 ^^^ rotatedRight v.a 22
  let majority := (v.a &&& v.b) ^^^ (v.a &&& v.c) ^^^ (v.b &&& v.c)
  ⟨carried + spreadEarly + majority,v.a,v.b,v.c,v.d + carried,v.e,v.f,v.g⟩

def compress (schedule : List Word) (words : Words) (data : List Byte) (start : ℕ) : Words × List Word :=
  let schedule := expandWords (readWords schedule data start)
  (words.add ((List.range 64).foldl (round schedule) words),schedule)

def compressBlock (s : Sha256) (data : List Byte) (start : ℕ) : Sha256 :=
  { s with
    words := (compress s.schedule s.words data start).1
    schedule := (compress s.schedule s.words data start).2 }

/-! ### Feeding -/

def keep (s : Sha256) (value : Byte) : Sha256 := { s with block := s.block.set s.filled value, filled := s.filled + 1 }

def closeBlock (s : Sha256) : Sha256 := { s.compressBlock s.block 0 with filled := 0 }

def fillByte (s : Sha256) (value : Byte) : Sha256 := if (s.keep value).filled = 64 then (s.keep value).closeBlock else s.keep value

def fillBlock (s : Sha256) (data : List Byte) (i : ℕ) : Sha256 × ℕ :=
  if 0 < s.filled ∧ i < data.length then fillBlock (s.fillByte (data.getD i 0)) data (i + 1) else (s,i)
termination_by data.length - i

def takeBlocks (s : Sha256) (data : List Byte) (i : ℕ) : Sha256 × ℕ :=
  if 64 ≤ data.length - i then takeBlocks (s.compressBlock data i) data (i + 64) else (s,i)
termination_by data.length - i

def keepRest (s : Sha256) (data : List Byte) (i : ℕ) : Sha256 :=
  if i < data.length then keepRest (s.keep (data.getD i 0)) data (i + 1) else s
termination_by data.length - i

def update (s : Sha256) (data : List Byte) : Sha256 :=
  let s := { s with fed := s.fed + BitVec.ofNat 64 data.length }
  let (s,i) := s.fillBlock data 0
  let (s,i) := s.takeBlocks data i
  s.keepRest data i

/-! ### Digests -/

def writeBigEndian (data : List Byte) (start : ℕ) (value : BitVec 64) : List Byte :=
  (List.range 8).foldl (fun data i => data.set (start + i) ((value >>> ((7 - i) * 8)).setWidth 8)) data

def zeros (data : List Byte) (start stop : ℕ) : List Byte :=
  (List.range (stop - start)).foldl (fun data i => data.set (start + i) 0) data

def resultOf (finished : Words) : List Byte :=
  [finished.a,finished.b,finished.c,finished.d,finished.e,finished.f,finished.g,finished.h].flatMap fun word : Word =>
    [(word >>> 24).setWidth 8,(word >>> 16).setWidth 8,(word >>> 8).setWidth 8,word.setWidth 8]

def endedBlock (s : Sha256) : List Byte :=
  let tail := (List.range s.filled).foldl (fun tail i => tail.set i (s.block.getD i 0)) (List.replicate 64 0)
  zeros (tail.set s.filled 0x80) (s.filled + 1) 64

def digest (s : Sha256) : List Byte × Sha256 :=
  let tail := s.endedBlock
  -- The length needs the last eight bytes of a block, and the one bit may leave fewer.
  let (finished,schedule,tail) :=
    if 56 < s.filled + 1 then
      let (finished,schedule) := compress s.schedule s.words tail 0
      (finished,schedule,zeros tail 0 56)
    else (s.words,s.schedule,tail)
  let (finished,schedule) := compress schedule finished (writeBigEndian tail 56 (s.fed * 8)) 0
  (resultOf finished,{ s with schedule })

def hexDigit (value : ℕ) : Byte := if value < 10 then BitVec.ofNat 8 (48 + value) else BitVec.ofNat 8 (87 + value)

def hexOf (data : List Byte) : List Byte := data.flatMap fun value => [hexDigit (value.toNat / 16),hexDigit (value.toNat % 16)]

def hex (s : Sha256) : List Byte := hexOf s.digest.1

end Sha256
end Ens.Packages

/-! ## One block of a message

A loop that writes consecutive slots of an array leaves what it wrote between what was there. So the schedule is the one the standard
has, whatever the array held before, and so are the words.
-/
namespace Ens.Packages.Sha256
open SecureHash Slots
variable {data l : List Byte} {words : Words} {w : List Word} {start i : ℕ}

theorem wordAt_eq (data : List Byte) (i : ℕ) : wordAt data i = wordOf data i := by
  rw [wordAt,wordOf]
  generalize data.getD i 0 = b0
  generalize data.getD (i + 1) 0 = b1
  generalize data.getD (i + 2) 0 = b2
  generalize data.getD (i + 3) 0 = b3
  have h0 := b0.isLt
  have h1 := b1.isLt
  have h2 := b2.isLt
  have h3 := b3.isLt
  have e2 := Nat.two_pow_add_eq_or_of_lt (i := 8) h3 b2.toNat
  have e1 := Nat.two_pow_add_eq_or_of_lt (i := 16) (b := 2 ^ 8 * b2.toNat + b3.toNat) (by omega) b1.toNat
  have e0 := Nat.two_pow_add_eq_or_of_lt (i := 24) (b := 2 ^ 16 * b1.toNat + (2 ^ 8 * b2.toNat + b3.toNat)) (by omega) b0.toNat
  have hsmall : ∀ {b : Byte} {k : ℕ}, b.toNat < 2 ^ 8 → k ≤ 24 → b.toNat % 2 ^ 32 * 2 ^ k % 2 ^ 32 = 2 ^ k * b.toNat := by
    intro b k hb hk
    have hle : 2 ^ k ≤ 2 ^ 24 := Nat.pow_le_pow_right (by omega) hk
    have hmul : b.toNat * 2 ^ k < 2 ^ 8 * 2 ^ 24 := Nat.mul_lt_mul_of_lt_of_le hb hle (by omega)
    rw [Nat.mod_eq_of_lt (a := b.toNat) (by omega),Nat.mod_eq_of_lt (by omega),Nat.mul_comm]
  apply BitVec.eq_of_toNat_eq
  rw [BitVec.toNat_or,BitVec.toNat_or,BitVec.toNat_or,BitVec.toNat_shiftLeft,BitVec.toNat_shiftLeft,BitVec.toNat_shiftLeft,
    BitVec.toNat_setWidth,BitVec.toNat_setWidth,BitVec.toNat_setWidth,BitVec.toNat_setWidth,BitVec.toNat_ofNat,Nat.shiftLeft_eq,
    Nat.shiftLeft_eq,Nat.shiftLeft_eq,hsmall h0 (by omega),hsmall h1 (by omega),hsmall h2 (by omega),Nat.mod_eq_of_lt (a := b3.toNat) (by omega),
    Nat.or_assoc,Nat.or_assoc,← e2,← e1,← e0,Nat.mod_eq_of_lt (by omega)]

/-! ### The schedule -/

theorem wordOf_block (h : i + 4 ≤ 64) : wordOf ((data.drop start).take 64) i = wordOf data (start + i) := by
  have hget : ∀ j, j < 64 → ((data.drop start).take 64).getD j 0 = data.getD (start + j) 0 := fun j hj => by
    rw [List.getD_eq_getElem?_getD,List.getD_eq_getElem?_getD,List.getElem?_take_of_lt hj,List.getElem?_drop]
  rw [wordOf,wordOf,hget i (by omega),hget (i + 1) (by omega),hget (i + 2) (by omega),hget (i + 3) (by omega)]
  rfl

theorem readWords_eq (hw : w.length = 64) :
    readWords w data start = SecureHash.schedule ((data.drop start).take 64) 0 ++ w.drop 16 := by
  have hset := foldl_set (fun i => wordAt data (start + i * 4)) w 0 16 (by omega)
  simp only [Nat.zero_add,List.take_zero,List.nil_append] at hset
  rw [readWords,hset,SecureHash.schedule]
  refine congrArg (· ++ w.drop 16) (List.map_congr_left fun i hi => ?_)
  have hi := List.mem_range.mp hi
  rw [wordAt_eq,wordOf_block (by omega),Nat.mul_comm]

theorem mixedWord_eq (rest : List Word) (hw : 16 ≤ w.length) : mixedWord (w ++ rest) w.length = nextWord w := by
  have hget : ∀ j, 0 < j → j ≤ 16 → (w ++ rest).getD (w.length - j) 0 = w.getD (w.length - j) 0 := fun j h0 hj =>
    List.getD_append _ _ _ _ (by omega)
  rw [mixedWord,nextWord]
  rw [hget 15 (by omega) (by omega),hget 2 (by omega) (by omega),hget 16 (by omega) (by omega),hget 7 (by omega) (by omega)]
  change _ + smallSigma0 _ + _ + smallSigma1 _ = _
  ac_rfl

theorem expandWords_eq {block : List Byte} {rest : List Word} (hr : rest.length = 48) :
    expandWords (SecureHash.schedule block 0 ++ rest) = SecureHash.schedule block 48 := by
  have hall : ∀ n, n ≤ 48 → (List.range n).foldl (fun schedule i => schedule.set (16 + i) (mixedWord schedule (16 + i)))
      (SecureHash.schedule block 0 ++ rest) = SecureHash.schedule block n ++ rest.drop n := by
    intro n
    induction n with
    | zero => exact fun _ => rfl
    | succ n ih =>
      intro hn
      have hlen := length_schedule block n
      have hlt : n < rest.length := by omega
      rw [List.range_succ,List.foldl_append,ih (by omega),List.foldl_cons,List.foldl_nil,← hlen,mixedWord_eq _ (by omega),
        List.set_append_right _ _ (Nat.le_refl _),Nat.sub_self,List.drop_eq_getElem_cons hlt,List.set_cons_zero,SecureHash.schedule,List.append_assoc]
      rfl
  rw [expandWords,hall 48 (Nat.le_refl _),List.drop_eq_nil_of_le (Nat.le_of_eq hr),List.append_nil]

/-! ### Compression -/

theorem round_eq (v : Words) (w : List Word) (i : ℕ) :
    round w v i = SecureHash.round v (constants.getD i 0) (w.getD i 0) := by
  have htable : roundConstants = constants := rfl
  rw [round,SecureHash.round,htable]
  exact congrArg (fun x : Word => (⟨x,_,_,_,_,_,_,_⟩ : Words)) (BitVec.add_assoc _ _ _)

theorem compress_eq (hw : w.length = 64) :
    compress w words data start =
      (SecureHash.compress words ((data.drop start).take 64),SecureHash.schedule ((data.drop start).take 64) 48) := by
  have hround : ∀ w, round w = fun v i => SecureHash.round v (constants.getD i 0) (w.getD i 0) := fun w =>
    funext fun v => funext fun i => round_eq v w i
  rw [compress,readWords_eq hw,expandWords_eq (by rw [List.length_drop,hw]),hround,
    SecureHash.compress,rounds]

end Ens.Packages.Sha256
