import Ens.Json.Place

/-! # Literals and numbers

What the reader takes for a literal or a number is one, and it takes each one whole that
something else follows.
-/
set_option linter.all false
namespace Ens.Json
open Loop
variable {text : Text} {i j p : ℕ} {b : ℕ} {s t u : Bytes}

def isFollow (b : ℕ) : Bool :=
  isWhitespace b || decide (b = ','.toNat) || decide (b = ']'.toNat) || decide (b = '}'.toNat)

theorem follow_ends (hb : isFollow b = true) : isWordByte b = false ∧ b ≠ '.'.toNat := by
  simp only [isFollow,isWhitespace,Bool.or_eq_true,decide_eq_true_eq,Char.reduceToNat] at hb
  simp only [isWordByte,isDigit,Bool.or_eq_false_iff,Bool.and_eq_false_iff,decide_eq_false_iff_not,
    Char.reduceToNat]
  omega

theorem digit_word (hb : isDigit b = true) : isWordByte b = true := by simp [isWordByte,hb]

theorem not_digit (hb : isWordByte b = false) : isDigit b = false := by
  cases hd : isDigit b with
  | false => rfl
  | true => rw [digit_word hd] at hb; cases hb

theorem exponentMark_word (hb : isExponentMark b = true) :
    isWordByte b = true ∧ isDigit b = false ∧ b ≠ '.'.toNat ∧ b < 0x80 := by
  simp only [isExponentMark,Bool.or_eq_true,decide_eq_true_eq] at hb
  rcases hb with rfl | rfl <;> decide

theorem sign_ascii (hb : isSign b = true) : isDigit b = false ∧ b < 0x80 := by
  simp only [isSign,Bool.or_eq_true,decide_eq_true_eq] at hb
  rcases hb with rfl | rfl <;> decide

theorem Digits.length_le (h : Digits s t) : t.length ≤ s.length := by
  cases h with
  | mk _ hr => exact Nat.le_succ_of_le hr.length_le

theorem Number.length_le (h : Number s t) : t.length ≤ s.length := by
  obtain ⟨hm,hw,hf,he⟩ := h
  have h1 : ∀ {s t}, Minus s t → t.length ≤ s.length := fun h => by cases h <;> simp
  have h2 : ∀ {s t}, Whole s t → t.length ≤ s.length := fun h => by
    cases h with
    | zero => exact Nat.le_succ _
    | digits _ hd => exact hd.length_le
  have h3 : ∀ {s t}, Fraction s t → t.length ≤ s.length := fun h => by
    cases h with
    | absent => exact Nat.le_refl _
    | present hd => exact Nat.le_succ_of_le hd.length_le
  have h4 : ∀ {s t}, Exponent s t → t.length ≤ s.length := fun h => by
    cases h with
    | absent => exact Nat.le_refl _
    | present _ hs hd =>
      refine Nat.le_succ_of_le (Nat.le_trans hd.length_le ?_)
      cases hs <;> simp
  exact Nat.le_trans (h4 he) (Nat.le_trans (h3 hf) (Nat.le_trans (h2 hw) (h1 hm)))

namespace Cursor

/-! ### Literals -/

theorem literal_sound {expected : Bytes} {v : Json} (h : At text i (b :: s)) :
    Yields (literal text expected v i) (fun r => r.1 = v ∧ ∃ t, b :: s = expected ++ t ∧ At text r.2 t)
      (Aborts False) := by
  obtain ⟨w,hw,hb⟩ := word_ok h
  rw [literal,hw,attempt_ok,ok_bind]
  split
  · exact yields_refuse (unexpectedValue_ok h)
  · rename_i he
    obtain rfl : w.bytes = expected := not_not.mp he
    have hs : b :: s = w.bytes ++ (b :: s).dropWhile isWordByte := by
      rw [hb,List.takeWhile_append_dropWhile]
    refine ⟨rfl,_,hs,?_⟩
    rw [hs] at h
    exact h.takes fun a ha => isWordByte_ascii (List.mem_takeWhile_imp (hb ▸ ha))

theorem literal_complete {expected : Bytes} {v : Json} (h : At text i (expected ++ t))
    (he : ∀ b ∈ expected, isWordByte b = true) (ht : Starts (isFollow · = true) t) :
    literal text expected v i = .ok (v,i + expected.length) ∧ At text (i + expected.length) t := by
  obtain ⟨w,hw,hb⟩ := word_ok h
  have hstop : t.takeWhile isWordByte = [] := by
    cases t with
    | nil => rfl
    | cons b t => simp [(follow_ends (ht b rfl)).1]
  rw [List.takeWhile_append_of_pos he,hstop,List.append_nil] at hb
  refine ⟨?_,h.takes fun a ha => isWordByte_ascii (he a ha)⟩
  rw [literal,hw,attempt_ok,ok_bind,if_neg (not_not.mpr hb)]

/-! ### The parts of a number -/

/-- The place past a part of a text. -/
def Past (text : Text) (part : Bytes → Bytes → Prop) (i : ℕ) (s : Bytes) (j : ℕ) : Prop :=
  ∃ t, At text j t ∧ part s t ∧ i ≤ j

theorem skipDigits_sound (h : At text i s) (hs : s.head?.any isDigit = true) :
    Past text Digits i s (skipDigits text i) := by
  cases s with
  | nil => cases hs
  | cons b s =>
    have hb : isDigit b = true := by simpa using hs
    refine ⟨_,h.skipDigits,?_,Nat.le_add_right _ _⟩
    rw [List.dropWhile_cons_of_pos hb]
    exact .mk hb (run_dropWhile isDigit s)

theorem skipDigits_complete (h : At text i s) (hd : Digits s t) (ht : Starts (isDigit · = false) t) :
    At text (skipDigits text i) t ∧ s.head?.any isDigit = true := by
  obtain ⟨hb,hr⟩ := hd
  have := h.skipDigits
  rw [List.dropWhile_cons_of_pos hb,hr.dropWhile_eq ht] at this
  exact ⟨this,by simpa using hb⟩

theorem sign_sound (h : At text i (b :: s)) (hb : b = '-'.toNat ∨ isDigit b = true) :
    Yields (sign text i) (fun j => ∃ c u, At text j (c :: u) ∧ isDigit c = true ∧ Minus (b :: s) (c :: u) ∧ i ≤ j)
      (Aborts False) := by
  rw [sign,h.byteAt,attempt_ok,ok_bind]
  split
  · rename_i hm
    subst hm
    have h' := h.next (by decide)
    simp only [h'.meets,atEnd_of_drop h'.left]
    cases s with
    | nil => exact yields_refuse (failureAt_ok _ _ h.le)
    | cons c u =>
      cases hc : isDigit c with
      | true =>
        simp only [List.head?_cons,Option.any_some,hc,if_true]
        exact ⟨c,u,h',hc,.present,Nat.le_succ _⟩
      | false =>
        obtain ⟨w,hw,-⟩ := word_ok h'
        simp only [List.head?_cons,Option.any_some,hc,reduceCtorEq,decide_false,Bool.false_eq_true,if_false,
          hw,attempt_ok,ok_bind]
        split <;> exact yields_refuse (failureAt_ok _ _ h.le)
  · rename_i hm
    exact ⟨b,s,h,hb.resolve_left hm,.absent,Nat.le_refl _⟩

theorem sign_complete {c : ℕ} (h : At text i s) (hm : Minus s (c :: u)) (hc : isDigit c = true) :
    ∃ j, sign text i = .ok j ∧ At text j (c :: u) ∧ i ≤ j := by
  cases hm with
  | absent =>
    refine ⟨i,?_,h,Nat.le_refl _⟩
    rw [sign,h.byteAt,attempt_ok,ok_bind,if_neg]
    rintro rfl
    exact absurd hc (by decide)
  | present =>
    have h' := h.next (by decide)
    refine ⟨i + 1,?_,h',Nat.le_succ _⟩
    rw [sign,h.byteAt,attempt_ok,ok_bind,if_pos rfl]
    simp only [h'.meets,List.head?_cons,Option.any_some,hc,if_true]

theorem whole_sound (hi : p ≤ text.length) (h : At text i (b :: s)) (hb : isDigit b = true) :
    Yields (whole text p i) (Past text Whole i (b :: s)) (Aborts False) := by
  rw [whole,h.byteAt,attempt_ok,ok_bind]
  split
  · rename_i h0
    subst h0
    split
    · exact yields_refuse (failureAt_ok _ _ hi)
    · exact ⟨s,h.next (by decide),.zero,Nat.le_succ _⟩
  · rename_i h0
    obtain ⟨t,ht,hd,hle⟩ := skipDigits_sound h (by simpa using hb)
    exact ⟨t,ht,.digits h0 hd,hle⟩

theorem whole_complete (h : At text i s) (hw : Whole s t) (ht : Starts (isDigit · = false) t) :
    ∃ j, whole text p i = .ok j ∧ At text j t ∧ i ≤ j := by
  cases hw with
  | zero =>
    have h' := h.next (by decide)
    refine ⟨i + 1,?_,h',Nat.le_succ _⟩
    rw [whole,h.byteAt,attempt_ok,ok_bind,if_pos rfl,if_neg]
    rw [h'.meets]
    cases t with
    | nil => simp
    | cons b t => simpa using ht b rfl
  | digits h0 hd =>
    refine ⟨_,?_,(skipDigits_complete h hd ht).1,Nat.le_add_right _ _⟩
    rw [whole,h.byteAt,attempt_ok,ok_bind,if_neg h0]

theorem fraction_sound (hi : p ≤ text.length) (h : At text i s) :
    Yields (fraction text p i) (Past text Fraction i s) (Aborts False) := by
  rw [fraction,h.sees]
  split
  · rename_i hp
    cases s with
    | nil => simp at hp
    | cons b s =>
      obtain rfl : b = '.'.toNat := by simpa using hp
      have h' := h.next (by decide)
      rw [h'.meets]
      split
      · rename_i hd
        obtain ⟨t,ht,hds,hle⟩ := skipDigits_sound h' hd
        exact ⟨t,ht,.present hds,by omega⟩
      · exact yields_refuse (failureAt_ok _ _ hi)
  · exact ⟨s,h,.absent,Nat.le_refl _⟩

theorem fraction_complete (h : At text i s) (hf : Fraction s t)
    (ht : Starts (fun b => isDigit b = false ∧ b ≠ '.'.toNat) t) :
    ∃ j, fraction text p i = .ok j ∧ At text j t ∧ i ≤ j := by
  cases hf with
  | absent =>
    refine ⟨i,?_,h,Nat.le_refl _⟩
    rw [fraction,h.sees,if_neg]
    cases s with
    | nil => simp
    | cons b s => simpa using (ht b rfl).2
  | present hd =>
    have h' := h.next (by decide)
    obtain ⟨ht',hhead⟩ := skipDigits_complete h' hd fun b hb => (ht b hb).1
    refine ⟨_,?_,ht',Nat.le_trans (Nat.le_succ i) (Nat.le_add_right _ _)⟩
    rw [fraction,h.sees,if_pos (by simp),h'.meets,if_pos hhead]

theorem exponent_sound (hi : p ≤ text.length) (h : At text i s) :
    Yields (exponent text p i) (Past text Exponent i s) (Aborts False) := by
  have hdigits {j : ℕ} {b : ℕ} {s u : Bytes} (hb : isExponentMark b = true) (hs : Sign s u) (hj : At text j u)
      (hij : i ≤ j) : Yields (if meets text isDigit j then .ok (skipDigits text j) else
        refuse (failureAt text (utf8 "the number at ") (utf8 (" has an 'e' with no digit after it. Write the "
          ++ "exponent's digits, as in '1e5'")) p)) (Past text Exponent i (b :: s)) (Aborts False) := by
    rw [hj.meets]
    split
    · rename_i hd
      obtain ⟨t,ht,hds,hle⟩ := skipDigits_sound hj hd
      exact ⟨t,ht,.present hb hs hds,by omega⟩
    · exact yields_refuse (failureAt_ok _ _ hi)
  rw [exponent,h.meets]
  split
  · rename_i hm
    cases s with
    | nil => simp at hm
    | cons b s =>
      have hb : isExponentMark b = true := by simpa using hm
      have h' := h.next (exponentMark_word hb).2.2.2
      rw [h'.meets]
      cases s with
      | nil => exact hdigits hb .absent h' (Nat.le_succ _)
      | cons c s =>
        cases hc : isSign c with
        | true =>
          simp only [List.head?_cons,Option.any_some,hc,if_true]
          exact hdigits hb (.present hc) (h'.next (sign_ascii hc).2) (Nat.le_add_right _ _)
        | false =>
          simp only [List.head?_cons,Option.any_some,hc,Bool.false_eq_true,if_false]
          exact hdigits hb .absent h' (Nat.le_succ _)
  · exact ⟨s,h,.absent,Nat.le_refl _⟩

theorem exponent_complete (h : At text i s) (he : Exponent s t) (ht : Starts (isWordByte · = false) t) :
    ∃ j, exponent text p i = .ok j ∧ At text j t ∧ i ≤ j := by
  have hnd : Starts (isDigit · = false) t := fun b hb => not_digit (ht b hb)
  cases he with
  | absent =>
    refine ⟨i,?_,h,Nat.le_refl _⟩
    rw [exponent,h.meets,if_neg]
    cases s with
    | nil => simp
    | cons b s =>
      intro hm
      have hw : isWordByte b = false := ht b rfl
      rw [(exponentMark_word (by simpa using hm)).1] at hw
      cases hw
  | @present b s u _ hb hs hd =>
    have h' := h.next (exponentMark_word hb).2.2.2
    have hmark : meets text isExponentMark i = true := by rw [h.meets]; simpa using hb
    cases hs with
    | absent =>
      obtain ⟨ht',hhead⟩ := skipDigits_complete h' hd hnd
      refine ⟨_,?_,ht',Nat.le_trans (Nat.le_succ i) (Nat.le_add_right _ _)⟩
      have hsign : s.head?.any isSign = false := by
        cases s with
        | nil => rfl
        | cons c s =>
          cases hc : isSign c with
          | false => simpa using hc
          | true => simp [(sign_ascii hc).1] at hhead
      rw [exponent,if_pos hmark]
      simp only [h'.meets,hsign,Bool.false_eq_true,if_false,hhead,if_true]
    | @present c u hc =>
      have h'' := h'.next (sign_ascii hc).2
      obtain ⟨ht',hhead⟩ := skipDigits_complete h'' hd hnd
      refine ⟨_,?_,ht',Nat.le_trans (Nat.le_add_right i 2) (Nat.le_add_right _ _)⟩
      rw [exponent,if_pos hmark]
      simp only [h'.meets,List.head?_cons,Option.any_some,hc,if_true]
      rw [h''.meets,if_pos hhead]

/-! ### Numbers -/

theorem number_sound (h : At text i (b :: s)) (hb : b = '-'.toNat ∨ isDigit b = true) :
    Yields (number text i) (fun r => ∃ n : Text, ∃ t, r.1 = .number n ∧ b :: s = n.bytes ++ t ∧
      Number (b :: s) t ∧ At text r.2 t) (Aborts False) := by
  refine (sign_sound h hb).bind fun j ⟨c,u,hj,hc,hm,hij⟩ => ?_
  refine (whole_sound h.le hj hc).bind fun k ⟨v,hk,hw,hjk⟩ => ?_
  refine (fraction_sound h.le hk).bind fun l ⟨w,hl,hf,hkl⟩ => ?_
  refine (exponent_sound h.le hl).bind fun m ⟨t,ht,he,hlm⟩ => ?_
  obtain ⟨n,hn,hs⟩ := h.substring ht (by omega)
  rw [hn,attempt_ok,ok_bind]
  exact ⟨n,t,rfl,hs,.mk hm hw hf he,ht⟩

theorem whole_head (h : Whole s t) : ∃ b u, s = b :: u ∧ isDigit b = true := by
  cases h with
  | zero => exact ⟨_,_,rfl,by decide⟩
  | digits _ hd => exact ⟨_,_,rfl,by cases hd; assumption⟩

theorem exponent_starts (h : Exponent s t) (ht : Starts (isFollow · = true) t) :
    Starts (fun b => isDigit b = false ∧ b ≠ '.'.toNat) s := by
  intro b hb
  cases h with
  | absent =>
    obtain ⟨hw,hp⟩ := follow_ends (ht b hb)
    exact ⟨not_digit hw,hp⟩
  | present hm _ _ =>
    obtain rfl : _ = b := Option.some.inj hb
    exact ⟨(exponentMark_word hm).2.1,(exponentMark_word hm).2.2.1⟩

theorem fraction_starts (h : Fraction s t)
    (ht : Starts (fun b => isDigit b = false ∧ b ≠ '.'.toNat) t) : Starts (isDigit · = false) s := by
  intro b hb
  cases h with
  | absent => exact (ht b hb).1
  | present _ =>
    obtain rfl : _ = b := Option.some.inj hb
    decide

theorem number_complete {n : Text} (h : At text i (n.bytes ++ t)) (hn : Number (n.bytes ++ t) t)
    (ht : Starts (isFollow · = true) t) : ∃ j, number text i = .ok (.number n,j) ∧ At text j t := by
  obtain ⟨hm,hw,hf,he⟩ := hn
  have hw' := exponent_starts he ht
  obtain ⟨c,u,rfl,hc⟩ := whole_head hw
  obtain ⟨j,hsign,hj,hij⟩ := sign_complete h hm hc
  obtain ⟨k,hwhole,hk,hjk⟩ := whole_complete (p := i) hj hw (fraction_starts hf hw')
  obtain ⟨l,hfraction,hl,hkl⟩ := fraction_complete (p := i) hk hf hw'
  obtain ⟨m,hexponent,hm',hlm⟩ := exponent_complete (p := i) hl he fun b hb => (follow_ends (ht b hb)).1
  obtain ⟨v,hv,hs⟩ := h.substring hm' (by omega)
  obtain rfl : n = v := Text.ext (List.append_cancel_right hs)
  refine ⟨m,?_,hm'⟩
  rw [number,hsign,ok_bind,hwhole,ok_bind,hfraction,ok_bind,hexponent,ok_bind,hv,attempt_ok,ok_bind]

end Cursor
end Ens.Json
