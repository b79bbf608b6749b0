import Mathlib.Algebra.Group.Nat.Defs
import Mathlib.Data.List.Basic
import Mathlib.Data.List.Forall2
import Mathlib.Data.List.GetD
import Mathlib.Data.Nat.Basic

/-! # SHA-256

The hash of a message of bytes as FIPS 180-4 specifies it: the padded message is parsed into blocks, and the compression of each block
is added to the words of the one before.
-/
namespace Ens.SecureHash

abbrev Byte := BitVec 8
abbrev Word := BitVec 32

structure Words where
  a : Word
  b : Word
  c : Word
  d : Word
  e : Word
  f : Word
  g : Word
  h : Word
deriving DecidableEq

def Words.add (s t : Words) : Words := ⟨s.a + t.a,s.b + t.b,s.c + t.c,s.d + t.d,s.e + t.e,s.f + t.f,s.g + t.g,s.h + t.h⟩

def rotateRight (n : ℕ) (x : Word) : Word := x >>> n ||| x <<< (32 - n)

def choose (x y z : Word) : Word := (x &&& y) ^^^ (~~~x &&& z)

def majority (x y z : Word) : Word := (x &&& y) ^^^ (x &&& z) ^^^ (y &&& z)

def bigSigma0 (x : Word) : Word := rotateRight 2 x ^^^ rotateRight 13 x ^^^ rotateRight 22 x

def bigSigma1 (x : Word) : Word := rotateRight 6 x ^^^ rotateRight 11 x ^^^ rotateRight 25 x

def smallSigma0 (x : Word) : Word := rotateRight 7 x ^^^ rotateRight 18 x ^^^ x >>> 3

def smallSigma1 (x : Word) : Word := rotateRight 17 x ^^^ rotateRight 19 x ^^^ x >>> 10

/-- The first 32 bits of the fractional parts of the square roots of the first eight primes. -/
def initial : Words :=
  ⟨0x6a09e667,0xbb67ae85,0x3c6ef372,0xa54ff53a,0x510e527f,0x9b05688c,0x1f83d9ab,0x5be0cd19⟩

/-- The first 32 bits of the fractional parts of the cube roots of the first 64 primes. -/
def constants : List Word := [
  0x428a2f98,0x71374491,0xb5c0fbcf,0xe9b5dba5,0x3956c25b,0x59f111f1,0x923f82a4,0xab1c5ed5,
  0xd807aa98,0x12835b01,0x243185be,0x550c7dc3,0x72be5d74,0x80deb1fe,0x9bdc06a7,0xc19bf174,
  0xe49b69c1,0xefbe4786,0x0fc19dc6,0x240ca1cc,0x2de92c6f,0x4a7484aa,0x5cb0a9dc,0x76f988da,
  0x983e5152,0xa831c66d,0xb00327c8,0xbf597fc7,0xc6e00bf3,0xd5a79147,0x06ca6351,0x14292967,
  0x27b70a85,0x2e1b2138,0x4d2c6dfc,0x53380d13,0x650a7354,0x766a0abb,0x81c2c92e,0x92722c85,
  0xa2bfe8a1,0xa81a664b,0xc24b8b70,0xc76c51a3,0xd192e819,0xd6990624,0xf40e3585,0x106aa070,
  0x19a4c116,0x1e376c08,0x2748774c,0x34b0bcb5,0x391c0cb3,0x4ed8aa4a,0x5b9cca4f,0x682e6ff3,
  0x748f82ee,0x78a5636f,0x84c87814,0x8cc70208,0x90befffa,0xa4506ceb,0xbef9a3f7,0xc67178f2]

def wordOf (block : List Byte) (i : ℕ) : Word :=
  BitVec.ofNat 32 (2 ^ 24 * (block.getD i 0).toNat + (2 ^ 16 * (block.getD (i + 1) 0).toNat +
    (2 ^ 8 * (block.getD (i + 2) 0).toNat + (block.getD (i + 3) 0).toNat)))

def nextWord (w : List Word) : Word :=
  smallSigma1 (w.getD (w.length - 2) 0) + w.getD (w.length - 7) 0 + smallSigma0 (w.getD (w.length - 15) 0) + w.getD (w.length - 16) 0

def schedule (block : List Byte) : ℕ → List Word
  | 0 => (List.range 16).map fun i => wordOf block (4 * i)
  | n + 1 => schedule block n ++ [nextWord (schedule block n)]

def round (s : Words) (k w : Word) : Words :=
  let t1 := s.h + bigSigma1 s.e + choose s.e s.f s.g + k + w
  let t2 := bigSigma0 s.a + majority s.a s.b s.c
  ⟨t1 + t2,s.a,s.b,s.c,s.d + t1,s.e,s.f,s.g⟩

def rounds (block : List Byte) (s : Words) : Words :=
  (List.range 64).foldl (fun s t => round s (constants.getD t 0) ((schedule block 48).getD t 0)) s

def compress (s : Words) (block : List Byte) : Words := s.add (rounds block s)

def absorb (s : Words) (message : List Byte) : Words :=
  if 64 ≤ message.length then absorb (compress s (message.take 64)) (message.drop 64) else s
termination_by message.length

def bigEndian (count n : ℕ) : List Byte := (List.range count).map fun i => BitVec.ofNat 8 (n / 2 ^ ((count - 1 - i) * 8))

def padding (length : ℕ) : List Byte := 0x80 :: (List.replicate ((119 - length % 64) % 64) 0 ++ bigEndian 8 (8 * length))

def output (s : Words) : List Byte := [s.a,s.b,s.c,s.d,s.e,s.f,s.g,s.h].flatMap fun w => bigEndian 4 w.toNat

def sha256 (message : List Byte) : List Byte := output (absorb initial (message ++ padding message.length))

/-! ### Blocks -/

variable {s : Words} {m m' : List Byte}

theorem absorb_short (hm : m.length < 64) : absorb s m = s := by
  rw [absorb,if_neg (by omega)]

theorem absorb_cons (hm : m.length = 64) : absorb s (m ++ m') = absorb (compress s m) m' := by
  rw [absorb,if_pos (by rw [List.length_append]; omega),← hm,List.take_left,List.drop_left]

theorem absorb_append (hm : 64 ∣ m.length) : absorb s (m ++ m') = absorb (absorb s m) m' := by
  induction hk : m.length using Nat.strong_induction_on generalizing s m with
  | _ k ih =>
    rcases Nat.lt_or_ge m.length 64 with hlt | hge
    · obtain rfl : m = [] := List.eq_nil_of_length_eq_zero (by omega)
      rw [absorb_short (m := []) (by simp),List.nil_append]
    · have htake : (m.take 64).length = 64 := by rw [List.length_take]; omega
      have hdrop : (m.drop 64).length = k - 64 := by rw [List.length_drop,hk]
      have hsplit : m = m.take 64 ++ m.drop 64 := (List.take_append_drop 64 m).symm
      calc absorb s (m ++ m') = absorb s (m.take 64 ++ (m.drop 64 ++ m')) := by rw [← List.append_assoc,List.take_append_drop]
        _ = absorb (compress s (m.take 64)) (m.drop 64 ++ m') := absorb_cons htake
        _ = absorb (absorb (compress s (m.take 64)) (m.drop 64)) m' := ih (k - 64) (by omega) (by omega) hdrop
        _ = absorb (absorb s m) m' := by rw [← absorb_cons (s := s) htake,← hsplit]

theorem absorb_block (hm : m.length = 64) : absorb s m = compress s m := by
  rw [← List.append_nil m,absorb_cons hm,absorb_short (by simp),List.append_nil]

theorem length_bigEndian (count n : ℕ) : (bigEndian count n).length = count := by simp [bigEndian]

theorem length_schedule (block : List Byte) (n : ℕ) : (schedule block n).length = 16 + n := by
  induction n with
  | zero => simp [schedule]
  | succ n ih =>
    rw [schedule,List.length_append,ih]
    rfl

/-! ### The tables -/

/-- A word is the first 32 bits of the fractional part of a root of a number. -/
def IsRootFraction (n p : ℕ) (w : Word) : Prop := ∃ whole < 8,
  (2 ^ 32 * whole + w.toNat) ^ n ≤ 2 ^ (32 * n) * p ∧ 2 ^ (32 * n) * p < (2 ^ 32 * whole + w.toNat + 1) ^ n

instance (n p : ℕ) (w : Word) : Decidable (IsRootFraction n p w) := inferInstanceAs (Decidable (∃ whole < 8,_))

def primes : List ℕ := [2,3,5,7,11,13,17,19,23,29,31,37,41,43,47,53,59,61,67,71,73,79,83,89,97,101,103,107,109,113,127,131,137,139,149,
  151,157,163,167,173,179,181,191,193,197,199,211,223,227,229,233,239,241,251,257,263,269,271,277,281,283,293,307,311]

theorem constants_fractions : List.Forall₂ (IsRootFraction 3) primes constants := by decide

theorem initial_fractions : List.Forall₂ (IsRootFraction 2) (primes.take 8)
    [initial.a,initial.b,initial.c,initial.d,initial.e,initial.f,initial.g,initial.h] := by decide

end Ens.SecureHash
