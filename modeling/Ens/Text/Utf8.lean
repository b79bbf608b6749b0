import Mathlib.Data.Nat.Notation
import Mathlib.Data.List.Basic
import Mathlib.Data.List.TakeWhile

/-! # Well-formed UTF-8

The byte sequences that encode Unicode characters, and where the characters in one begin. A
byte in the middle of a character is told by its own value, so well-formed bytes split at any
place that no such byte follows.
-/
namespace Ens.Utf8

/-- A byte that continues a character. -/
def Tail (b : ℕ) : Prop := 0x80 ≤ b ∧ b ≤ 0xBF

instance (b : ℕ) : Decidable (Tail b) := inferInstanceAs (Decidable (_ ∧ _))

/-- The first two bytes of a character of three. -/
def Three (a b : ℕ) : Prop :=
  (a = 0xE0 ∧ 0xA0 ≤ b ∧ b ≤ 0xBF) ∨ (a = 0xED ∧ 0x80 ≤ b ∧ b ≤ 0x9F) ∨
    (0xE1 ≤ a ∧ a ≤ 0xEF ∧ a ≠ 0xED ∧ Tail b)

/-- The first two bytes of a character of four. -/
def Four (a b : ℕ) : Prop :=
  (a = 0xF0 ∧ 0x90 ≤ b ∧ b ≤ 0xBF) ∨ (a = 0xF4 ∧ 0x80 ≤ b ∧ b ≤ 0x8F) ∨
    (0xF1 ≤ a ∧ a ≤ 0xF3 ∧ Tail b)

inductive Char : List ℕ → Prop
  | one {a : ℕ} : a < 0x80 → Char [a]
  | two {a b : ℕ} : 0xC2 ≤ a → a ≤ 0xDF → Tail b → Char [a,b]
  | three {a b c : ℕ} : Three a b → Tail c → Char [a,b,c]
  | four {a b c d : ℕ} : Four a b → Tail c → Tail d → Char [a,b,c,d]

inductive Valid : List ℕ → Prop
  | nil : Valid []
  | cons {c bs : List ℕ} : Char c → Valid bs → Valid (c ++ bs)

/-- A character begins or the bytes end at a place. -/
def Boundary (bs : List ℕ) (i : ℕ) : Prop := i ≤ bs.length ∧ ∀ b, bs[i]? = some b → ¬Tail b

/-- A number that is the code of a character: neither a surrogate nor out of range. -/
def Scalar (n : ℕ) : Prop := n < 0xD800 ∨ (0xDFFF < n ∧ n < 0x110000)

instance (n : ℕ) : Decidable (Scalar n) := inferInstanceAs (Decidable (_ ∨ _))

def encode (n : ℕ) : List ℕ :=
  if n < 0x80 then [n]
  else if n < 0x800 then [0xC0 + n / 64,0x80 + n % 64]
  else if n < 0x10000 then [0xE0 + n / 4096,0x80 + n / 64 % 64,0x80 + n % 64]
  else [0xF0 + n / 262144,0x80 + n / 4096 % 64,0x80 + n / 64 % 64,0x80 + n % 64]

variable {bs cs c : List ℕ} {a b i j : ℕ}

theorem Three.second (h : Three a b) : Tail b := by
  unfold Three at h
  unfold Tail at *
  omega

theorem Four.second (h : Four a b) : Tail b := by
  unfold Four at h
  unfold Tail at *
  omega

/-- A character is a byte that continues none and then bytes that do. -/
theorem Char.shape (h : Char c) : ∃ a r, c = a :: r ∧ ¬Tail a ∧ ∀ b ∈ r, Tail b := by
  cases h with
  | one ha => exact ⟨_,[],rfl,by unfold Tail; omega,by simp⟩
  | two h1 h2 hb => exact ⟨_,_,rfl,by unfold Tail; omega,by simpa using hb⟩
  | three hab hc =>
    refine ⟨_,_,rfl,?_,by simpa using ⟨hab.second,hc⟩⟩
    unfold Three at hab
    unfold Tail
    omega
  | four hab hc hd =>
    refine ⟨_,_,rfl,?_,by simpa using ⟨hab.second,hc,hd⟩⟩
    unfold Four at hab
    unfold Tail
    omega

theorem Char.length_pos (h : Char c) : 0 < c.length := by
  obtain ⟨a,r,rfl,-,-⟩ := h.shape
  exact Nat.succ_pos _

theorem encode_char {n : ℕ} (h : Scalar n) : Char (encode n) := by
  have htail (m : ℕ) : Tail (0x80 + m % 64) := by unfold Tail; omega
  unfold encode
  split
  · exact .one (by omega)
  · split
    · exact .two (by omega) (by omega) (htail n)
    · split
      · refine .three ?_ (htail n)
        unfold Scalar at h
        unfold Three Tail
        omega
      · refine .four ?_ (htail _) (htail n)
        unfold Scalar at h
        unfold Four Tail
        omega

/-- No place inside a character is a boundary. -/
theorem Char.inside {w : List ℕ} (h : Char w) (h0 : 0 < i) (hi : i < w.length) :
    ∃ b, w[i]? = some b ∧ Tail b := by
  obtain ⟨a,r,rfl,-,hr⟩ := h.shape
  obtain ⟨j,rfl⟩ : ∃ j, i = j + 1 := ⟨i - 1,by omega⟩
  have hj : j < r.length := by simpa using hi
  exact ⟨r[j],by simp [hj],hr _ (List.getElem_mem hj)⟩

theorem boundary_length (bs : List ℕ) : Boundary bs bs.length :=
  ⟨Nat.le_refl _,by simp⟩

theorem boundary_of_ascii (h : bs[i]? = some b) (hb : b < 0x80) : Boundary bs i := by
  refine ⟨Nat.le_of_lt (List.getElem?_eq_some_iff.mp h).1,fun b' hb' => ?_⟩
  obtain rfl : b = b' := by rw [h] at hb'; exact Option.some.inj hb'
  unfold Tail; omega

theorem boundary_zero (h : Valid bs) : Boundary bs 0 := by
  refine ⟨Nat.zero_le _,fun b hb => ?_⟩
  cases h with
  | nil => cases hb
  | cons hc _ =>
    obtain ⟨a,r,rfl,ha,-⟩ := hc.shape
    obtain rfl : a = b := by simpa using hb
    exact ha

theorem boundary_drop (h : Boundary bs (i + j)) : Boundary (bs.drop i) j :=
  ⟨by have := h.1; simp only [List.length_drop]; omega,by simpa using h.2⟩

theorem boundary_take (h : Boundary bs i) (hij : i ≤ j) : Boundary (bs.take j) i := by
  refine ⟨by have := h.1; simp only [List.length_take]; omega,fun b hb => ?_⟩
  rw [List.getElem?_take] at hb
  split at hb
  · exact h.2 b hb
  · cases hb

theorem Valid.append (h : Valid bs) (h' : Valid cs) : Valid (bs ++ cs) := by
  induction h with
  | nil => exact h'
  | cons hc _ ih => rw [List.append_assoc]; exact .cons hc ih

/-- Well-formed bytes split at a boundary into well-formed bytes. -/
theorem valid_ascii (h : ∀ b ∈ bs, b < 0x80) : Valid bs := by
  induction bs with
  | nil => exact .nil
  | cons b bs ih =>
    exact .cons (.one (h b (List.mem_cons_self ..))) (ih fun a ha => h a (List.mem_cons_of_mem _ ha))

theorem Valid.split (h : Valid bs) (hb : Boundary bs i) : Valid (bs.take i) ∧ Valid (bs.drop i) := by
  induction h generalizing i with
  | nil => simpa using Valid.nil
  | @cons c bs hc hbs ih =>
    rcases Nat.eq_zero_or_pos i with rfl | h0
    · exact ⟨by simpa using Valid.nil,by simpa using Valid.cons hc hbs⟩
    · rcases Nat.lt_or_ge i c.length with hi | hi
      · obtain ⟨b,hcb,ht⟩ := hc.inside h0 hi
        exact absurd ht (hb.2 b (by rwa [List.getElem?_append_left hi]))
      · obtain ⟨j,rfl⟩ := Nat.exists_eq_add_of_le hi
        have hj : Boundary bs j := by simpa using boundary_drop hb
        obtain ⟨h1,h2⟩ := ih hj
        rw [List.take_length_add_append,List.drop_length_add_append]
        exact ⟨.cons hc h1,h2⟩

/-- The bytes between two boundaries are well formed. -/
theorem Valid.slice (h : Valid bs) (hi : Boundary bs i) (hj : Boundary bs j) (hij : i ≤ j) :
    Valid ((bs.take j).drop i) :=
  ((h.split hj).1.split (boundary_take hi hij)).2

/-- At a boundary before the end stands a whole character, with a boundary after it. -/
theorem Valid.next (h : Valid bs) (hi : Boundary bs i) (hlt : i < bs.length) :
    ∃ c, Char c ∧ c <+: bs.drop i ∧ Boundary bs (i + c.length) := by
  have hv := (h.split hi).2
  cases hd : bs.drop i with
  | nil => have := List.drop_eq_nil_iff.mp hd; omega
  | cons a r =>
    rw [hd] at hv
    generalize hr : a :: r = rest at hv
    cases hv with
    | nil => cases hr
    | @cons c rest hc hrest =>
      refine ⟨c,hc,List.prefix_append c rest,?_⟩
      have hlen := congrArg List.length hd
      rw [hr,List.length_drop,List.length_append] at hlen
      refine ⟨by omega,fun b hb => ?_⟩
      rw [← List.getElem?_drop,hd,hr] at hb
      exact (boundary_zero hrest).2 b (by simpa [List.getElem?_append_right] using hb)

theorem Char.length_eq {r : List ℕ} (h : Char (b :: r)) (hb : 0x80 ≤ b) :
    (b :: r).length = if 0xF0 ≤ b then 4 else if 0xE0 ≤ b then 3 else 2 := by
  cases h with
  | one _ => omega
  | two _ h2 _ => rw [if_neg (by omega),if_neg (by omega)]; rfl
  | three h1 _ =>
    unfold Three Tail at h1
    rw [if_neg (by omega),if_pos (by omega)]
    rfl
  | four h1 _ _ =>
    unfold Four Tail at h1
    rw [if_pos (by omega)]
    rfl

/-- A byte below 0x80 is a character of its own. -/
theorem Char.ascii {r : List ℕ} (h : Char (b :: r)) (hb : b < 0x80) : r = [] := by
  cases h with
  | one _ => rfl
  | two h1 _ _ => omega
  | three h1 _ => unfold Three at h1; omega
  | four h1 _ _ => unfold Four at h1; omega

theorem Valid.boundary_succ (h : Valid bs) (hi : bs[i]? = some b) (hb : b < 0x80) :
    Boundary bs (i + 1) := by
  obtain ⟨hlt,hget⟩ := List.getElem?_eq_some_iff.mp hi
  obtain ⟨c,hc,⟨t,ht⟩,hn⟩ := h.next (boundary_of_ascii hi hb) hlt
  obtain ⟨a,r,rfl,-,-⟩ := hc.shape
  rw [List.drop_eq_getElem_cons hlt,hget] at ht
  obtain rfl : a = b := (List.cons.inj ht).1
  obtain rfl := hc.ascii hb
  exact hn

/-- Past bytes below 0x80 that start at a boundary is a boundary. -/
theorem Valid.boundary_run (h : Valid bs) (hi : Boundary bs i) (hp : cs <+: bs.drop i)
    (hcs : ∀ b ∈ cs, b < 0x80) : Boundary bs (i + cs.length) := by
  induction cs generalizing i with
  | nil => exact hi
  | cons a cs ih =>
    obtain ⟨t,ht⟩ := hp
    have ha : bs[i]? = some a := by
      rw [← Nat.add_zero i,← List.getElem?_drop,← ht]; rfl
    have hd : bs.drop (i + 1) = cs ++ t := by rw [← List.drop_drop,← ht]; rfl
    have := ih (h.boundary_succ ha (hcs a (List.mem_cons_self ..))) ⟨t,hd.symm⟩
      fun b hb => hcs b (List.mem_cons_of_mem _ hb)
    rwa [List.length_cons,Nat.add_comm cs.length,← Nat.add_assoc]

theorem takeWhile_stop (p : ℕ → Bool) (hb : bs[(bs.takeWhile p).length]? = some b) : p b = false := by
  induction bs with
  | nil => cases hb
  | cons a bs ih =>
    cases hp : p a with
    | true =>
      rw [List.takeWhile_cons_of_pos hp] at hb
      exact ih (by simpa using hb)
    | false =>
      rw [List.takeWhile_cons_of_neg (by simp [hp])] at hb
      obtain rfl : a = b := by simpa using hb
      exact hp

end Ens.Utf8
