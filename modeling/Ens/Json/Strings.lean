import Ens.Json.Place

/-! # Strings and escapes

The reader takes exactly the strings of the grammar, character for character, and a backslash
that a character beyond ASCII follows is where it aborts: the message it makes there cuts that
character after its first byte.
-/
set_option linter.all false
namespace Ens.Json
open Loop
variable {text o : Text} {i j p q : ℕ} {b code high : ℕ} {s t u d e : Bytes}

theorem hexValue_ascii {x : ℕ} (hb : hexValue b = some x) : b < 0x80 := by
  unfold hexValue at hb
  simp only [Char.reduceToNat] at hb
  split at hb
  · exact isDigit_ascii (by assumption)
  · repeat' split at hb
    all_goals first | omega | cases hb

theorem Hex4.length_lt (h : Hex4 s code t) : t.length < s.length := by
  cases h
  simp only [List.length_cons]
  omega

theorem Escape.length_lt (h : Escape s e t) : t.length < s.length := by
  cases h with
  | itself | letter => exact Nat.lt_succ_self _
  | unicode hx => exact Nat.lt_succ_of_lt hx.length_lt
  | pair hx hx' =>
    have := hx.length_lt
    have := hx'.length_lt
    simp only [List.length_cons] at *
    omega

theorem Body.length_le (h : Body s d t) : t.length ≤ s.length := by
  induction h with
  | nil => exact Nat.le_refl _
  | plain _ _ _ _ ih => exact Nat.le_succ_of_le ih
  | escape he _ ih => exact Nat.le_succ_of_le (Nat.le_trans ih (Nat.le_of_lt he.length_lt))

theorem Quoted.length_le {v : Text} (h : Quoted s v t) : t.length ≤ s.length := by
  cases h with
  | mk hb =>
    have := hb.length_le
    simp only [List.length_cons] at *
    omega

namespace Cursor

/-! ### Hex digits -/

theorem hexDigit_sound (hi : p ≤ text.length) (h : At text i s) :
    Yields (hexDigit text p (code,i)) (fun r => ∃ b x u, s = b :: u ∧ hexValue b = some x ∧
      r = (code * 16 + x,i + 1) ∧ At text (i + 1) u) (Aborts False) := by
  rw [hexDigit,← Nat.add_zero i,getElem?_of_drop h.left]
  cases s with
  | nil => exact yields_refuse (failureAt_ok _ _ hi)
  | cons b u =>
    simp only [List.getElem?_cons_zero,Option.bind_some]
    cases hx : hexValue b with
    | none => exact yields_refuse (failureAt_ok _ _ hi)
    | some x => exact ⟨b,x,u,rfl,hx,rfl,h.next (hexValue_ascii hx)⟩

theorem hexDigit_complete {x : ℕ} (h : At text i (b :: u)) (hx : hexValue b = some x) :
    hexDigit text p (code,i) = .ok (code * 16 + x,i + 1) := by
  rw [hexDigit,byte_of_drop h.left]
  simp [hx]

theorem hexEscape_eq : hexEscape text p i =
    hexDigit text p (0,i) >>= fun s => hexDigit text p s >>= fun s => hexDigit text p s >>=
      fun s => hexDigit text p s := by
  simp [hexEscape,List.range,List.range.loop]

theorem hexEscape_sound (hi : p ≤ text.length) (h : At text i s) :
    Yields (hexEscape text p i) (fun r => r.2 = i + 4 ∧ ∃ t, Hex4 s r.1 t ∧ At text r.2 t)
      (Aborts False) := by
  rw [hexEscape_eq]
  refine (hexDigit_sound hi h).bind fun r₁ h₁ => ?_
  obtain ⟨a,w,s,rfl,hw,rfl,h⟩ := h₁
  refine (hexDigit_sound hi h).bind fun r₂ h₂ => ?_
  obtain ⟨b,x,s,rfl,hx,rfl,h⟩ := h₂
  refine (hexDigit_sound hi h).bind fun r₃ h₃ => ?_
  obtain ⟨c,y,s,rfl,hy,rfl,h⟩ := h₃
  refine (hexDigit_sound hi h).mono (fun r₄ h₄ => ?_) fun _ => id
  obtain ⟨d,z,s,rfl,hz,rfl,h⟩ := h₄
  refine ⟨rfl,s,?_,h⟩
  simpa using Hex4.mk hw hx hy hz

theorem hexEscape_complete (h : At text i s) (hx : Hex4 s code t) :
    hexEscape text p i = .ok (code,i + 4) ∧ At text (i + 4) t := by
  obtain ⟨hw,hx,hy,hz⟩ := hx
  have h1 := h.next (hexValue_ascii hw)
  have h2 := h1.next (hexValue_ascii hx)
  have h3 := h2.next (hexValue_ascii hy)
  refine ⟨?_,h3.next (hexValue_ascii hz)⟩
  rw [hexEscape_eq,hexDigit_complete h hw,ok_bind,hexDigit_complete h1 hx,ok_bind,hexDigit_complete h2 hy,
    ok_bind,hexDigit_complete h3 hz,Nat.zero_mul,Nat.zero_add]

inductive Low (high : ℕ) : Bytes → ℕ → Bytes → Prop
  | mk {low : ℕ} {u t : Bytes} : Hex4 u low t → 0xDC00 ≤ low → low ≤ 0xDFFF →
      Low high ('\\'.toNat :: 'u'.toNat :: u) (0x10000 + (high - 0xD800) * 0x400 + (low - 0xDC00)) t

theorem Low.escape (hl : Low high u code t) (hx : Hex4 s high u) (h1 : 0xD800 ≤ high) (h2 : high ≤ 0xDBFF) :
    Escape ('u'.toNat :: s) (Utf8.encode code) t := by
  cases hl with
  | mk hx' h3 h4 => exact .pair hx hx' h1 h2 h3 h4

theorem lowSurrogate_sound (hs : At text p e) (h : At text (p + 6) s) :
    Yields (lowSurrogate text p high (p + 6))
      (fun r => ∃ t, Low high s r.1 t ∧ At text r.2 t) (Aborts False) := by
  rw [lowSurrogate,h.sees]
  split
  · rename_i hc
    cases s with
    | nil => simp at hc
    | cons a s =>
      simp only [List.head?_cons,Option.some.injEq,Bool.and_eq_true,decide_eq_true_eq] at hc
      obtain ⟨rfl,hu⟩ := hc
      have h1 := h.next (by decide)
      rw [h1.sees] at hu
      cases s with
      | nil => simp at hu
      | cons c s =>
        obtain rfl : c = 'u'.toNat := by simpa using hu
        refine (hexEscape_sound h.le (h1.next (by decide))).bind fun r ⟨hr,t,hx,ht⟩ => ?_
        dsimp only
        split
        · rename_i hl
          exact ⟨t,.mk hx hl.1 hl.2,ht⟩
        · exact yields_refuse (loneSurrogate_ok hs h)
  · exact yields_refuse (loneSurrogate_ok hs h)

theorem lowSurrogate_complete {second : ℕ} (h : At text second s) (hl : Low high s code t) :
    ∃ j, lowSurrogate text p high second = .ok (code,j) ∧ At text j t := by
  obtain ⟨hx,h1,h2⟩ := hl
  have hu := h.next (by decide)
  obtain ⟨hr,ht⟩ := hexEscape_complete (p := second) (hu.next (by decide)) hx
  refine ⟨_,?_,ht⟩
  rw [lowSurrogate,h.sees,hu.sees,if_pos (by simp),hr,ok_bind]
  simp only
  rw [if_pos ⟨h1,h2⟩]

/-! ### Escapes -/

theorem escapeLetter_letters (h : escapeLetter b = some code) :
    ∃ c : Char, b = c.toNat ∧ (c,code) ∈ letters := by
  have hmem (c : Char) (n : ℕ) (hb : b = c.toNat) (hn : some n = some code) (hc : (c,n) ∈ letters) :
      ∃ c : Char, b = c.toNat ∧ (c,code) ∈ letters := by
    obtain rfl := Option.some.inj hn
    exact ⟨c,hb,hc⟩
  unfold escapeLetter at h
  split at h
  · exact hmem _ _ (by assumption) h (by decide)
  split at h
  · exact hmem _ _ (by assumption) h (by decide)
  split at h
  · exact hmem _ _ (by assumption) h (by decide)
  split at h
  · exact hmem _ _ (by assumption) h (by decide)
  split at h
  · exact hmem _ _ (by assumption) h (by decide)
  · cases h

theorem letters_escapeLetter {c : Char} (h : (c,code) ∈ letters) :
    escapeLetter c.toNat = some code ∧ code < 0x80 ∧ c.toNat < 0x80 ∧ c ≠ '"' ∧ c ≠ '\\' ∧ c ≠ '/' := by
  simp only [letters,List.mem_cons,Prod.mk.injEq,List.not_mem_nil,or_false] at h
  rcases h with ⟨rfl,rfl⟩ | ⟨rfl,rfl⟩ | ⟨rfl,rfl⟩ | ⟨rfl,rfl⟩ | ⟨rfl,rfl⟩ <;> decide

theorem appendCode_bytes (h : Utf8.Scalar code) :
    (appendCode o code).bytes = o.bytes ++ Utf8.encode code := by
  rw [appendCode,dif_pos h]
  rfl

theorem appendCode_ascii (h : code < 0x80) : (appendCode o code).bytes = o.bytes ++ [code] := by
  rw [appendCode_bytes (.inl (by omega)),Utf8.encode,if_pos h]

theorem low_scalar (h1 : 0xD800 ≤ high) (h2 : high ≤ 0xDBFF) (h : Low high s code t) : Utf8.Scalar code := by
  obtain ⟨_,h3,h4⟩ := h
  unfold Utf8.Scalar
  omega

theorem hex4_lt (h : Hex4 s code t) : code < 0x10000 := by
  have hlt {b x : ℕ} (hb : hexValue b = some x) : x < 16 := by
    unfold hexValue at hb
    simp only [isDigit,Char.reduceToNat,Bool.and_eq_true,decide_eq_true_eq] at hb
    repeat' split at hb
    all_goals simp only [Option.some.injEq,reduceCtorEq] at hb
    all_goals omega
  obtain ⟨hw,hx,hy,hz⟩ := h
  have := hlt hw
  have := hlt hx
  have := hlt hy
  have := hlt hz
  omega

/-- The escape at a place is whole, or the reader throws; it aborts only where a character
beyond ASCII follows the backslash. -/
theorem escape_sound (hs : q ≤ text.length) (h : At text i ('\\'.toNat :: s)) :
    Yields (escape text o q i)
      (fun r => ∃ e t, r.1.bytes = o.bytes ++ e ∧ Escape s e t ∧ At text r.2 t)
      (Aborts (∃ b t, s = b :: t ∧ 0x80 ≤ b)) := by
  have h1 := h.next (by decide)
  rw [escape,atEnd_of_drop h1.left]
  cases s with
  | nil => exact yields_refuse (endsInside_ok _ _ hs h1.le)
  | cons b t =>
    simp only [reduceCtorEq,decide_false,Bool.false_eq_true,if_false,h1.byteAt,attempt_ok,ok_bind]
    split
    · rename_i hb
      have h2 := h1.next (show b < 0x80 by rcases hb with rfl | rfl | rfl <;> decide)
      obtain ⟨v,hv,he⟩ := h1.substring h2 (Nat.le_succ _)
      rw [hv,attempt_ok,ok_bind]
      have hvb : [b] = v.bytes := List.append_cancel_right he
      exact ⟨[b],t,by rw [Text.append_bytes,hvb],.itself hb,h2⟩
    cases hl : escapeLetter b with
    | some code =>
      obtain ⟨c,rfl,hc⟩ := escapeLetter_letters hl
      have := letters_escapeLetter hc
      exact ⟨_,t,appendCode_ascii this.2.1,.letter hc,h1.next this.2.2.1⟩
    | none =>
      dsimp only
      split
      · rename_i hu
        subst hu
        have hmono {A : Type} {m : Except Halt A} {Q : A → Prop} (hm : Yields m Q (Aborts False)) :
            Yields m Q (Aborts (∃ b t', 'u'.toNat :: t = b :: t' ∧ 0x80 ≤ b)) :=
          hm.mono (fun _ => id) fun _ => Aborts.mono False.elim
        have h2 := h1.next (by decide)
        refine (hmono (hexEscape_sound h.le h2)).bind fun r hread => ?_
        obtain ⟨code,j⟩ := r
        obtain ⟨hr,u,hx,hj⟩ := hread
        have hr : j = i + 6 := hr
        subst hr
        dsimp only
        split
        · rename_i hhigh
          refine (hmono (lowSurrogate_sound h hj)).bind fun r hread => ?_
          obtain ⟨v,hlow,hr⟩ := hread
          exact ⟨_,v,appendCode_bytes (low_scalar hhigh.1 hhigh.2 hlow),hlow.escape hx hhigh.1 hhigh.2,hr⟩
        split
        · exact yields_refuse (loneSurrogate_ok h hj)
        · have hsc : Utf8.Scalar code := by
            have := hex4_lt hx
            unfold Utf8.Scalar
            omega
          exact ⟨_,u,appendCode_bytes hsc,.unicode hx hsc,hj⟩
      · rcases Nat.lt_or_ge b 0x80 with hb | hb
        · obtain ⟨v,hv,-⟩ := h.substring (h1.next hb) (Nat.le_add_right i 2)
          exact yields_refuse (by rw [hv,ok_bind]; exact failureAt_ok _ _ h.le)
        · cases hv : text.substring i (i + 2) with
          | ok v => exact yields_refuse (by rw [ok_bind]; exact failureAt_ok _ _ h.le)
          | error stop =>
            cases stop with
            | abort => exact ⟨b,t,rfl,hb⟩
            | endless => exact absurd hv (text.substring_not_endless _ _)

theorem escape_complete (h : At text i ('\\'.toNat :: s)) (he : Escape s e t) :
    ∃ v j, escape text o q i = .ok (v,j) ∧ v.bytes = o.bytes ++ e ∧ At text j t := by
  have h1 := h.next (by decide)
  rw [escape,atEnd_of_drop h1.left]
  cases he with
  | @itself c _ hc =>
    have h2 := h1.next (show c < 0x80 by rcases hc with rfl | rfl | rfl <;> decide)
    obtain ⟨v,hv,he⟩ := h1.substring h2 (Nat.le_succ _)
    have hvb : [c] = v.bytes := List.append_cancel_right he
    refine ⟨o.append v,i + 2,?_,by rw [Text.append_bytes,hvb],h2⟩
    simp only [reduceCtorEq,decide_false,Bool.false_eq_true,if_false,h1.byteAt,attempt_ok,ok_bind,if_pos hc,hv]
  | @letter c code _ hc =>
    obtain ⟨hl,hcode,hascii,h3,h4,h5⟩ := letters_escapeLetter hc
    have hne : ¬(c.toNat = '"'.toNat ∨ c.toNat = '\\'.toNat ∨ c.toNat = '/'.toNat) := by
      simp only [Char.toNat_inj]
      tauto
    refine ⟨_,_,?_,appendCode_ascii hcode,h1.next hascii⟩
    simp only [reduceCtorEq,decide_false,Bool.false_eq_true,if_false,h1.byteAt,attempt_ok,ok_bind,if_neg hne,hl]
  | @unicode code s _ hx hsc =>
    obtain ⟨hr,hj⟩ := hexEscape_complete (p := i) (h1.next (by decide)) hx
    refine ⟨_,_,?_,appendCode_bytes hsc,hj⟩
    unfold Utf8.Scalar at hsc
    simp only [reduceCtorEq,decide_false,Bool.false_eq_true,if_false,h1.byteAt,attempt_ok,ok_bind]
    rw [if_neg (by decide)]
    simp only [show escapeLetter 'u'.toNat = none from rfl,if_true,hr,ok_bind]
    rw [if_neg (by omega),if_neg (by omega)]
  | @pair high low s u _ hx hx' h2 h3 h4 h5 =>
    obtain ⟨hr,hj⟩ := hexEscape_complete (p := i) (h1.next (by decide)) hx
    have hlow : Low high _ _ _ := .mk hx' h4 h5
    obtain ⟨j,hl,ht⟩ := lowSurrogate_complete (p := i) hj hlow
    refine ⟨_,j,?_,appendCode_bytes (low_scalar h2 h3 hlow),ht⟩
    simp only [reduceCtorEq,decide_false,Bool.false_eq_true,if_false,h1.byteAt,attempt_ok,ok_bind]
    rw [if_neg (by decide)]
    simp only [show escapeLetter 'u'.toNat = none from rfl,if_true,hr,ok_bind]
    rw [if_pos ⟨h2,h3⟩,hl,ok_bind]

theorem not_boundary_succ (h : At text i (b :: s)) (hb : 0x80 ≤ b) : ¬Utf8.Boundary text.bytes (i + 1) := by
  obtain ⟨c,hc,⟨r,hr⟩,-⟩ := text.valid.next h.boundary h.lt
  rw [h.left] at hr
  obtain ⟨a,c',rfl,-,htail⟩ := hc.shape
  obtain rfl : a = b := (List.cons.inj hr).1
  have hlen := hc.length_eq hb
  cases c' with
  | nil => simp only [List.length_singleton] at hlen; split at hlen <;> [omega; split at hlen] <;> omega
  | cons x c' =>
    intro hbound
    refine hbound.2 x ?_ (htail x (List.mem_cons_self ..))
    rw [getElem?_of_drop h.left,← hr]
    rfl

theorem escape_aborts (h : At text i ('\\'.toNat :: b :: s)) (hb : 0x80 ≤ b) :
    escape text o q i = .error (.stop .abort) := by
  have h1 := h.next (by decide)
  have hcut : text.substring i (i + 2) = .error .abort := Text.substring_aborts (not_boundary_succ h1 hb)
  have hl : escapeLetter b = none := by
    cases hl : escapeLetter b with
    | none => rfl
    | some code =>
      obtain ⟨c,rfl,hc⟩ := escapeLetter_letters hl
      have := (letters_escapeLetter hc).2.2.1
      omega
  have hne : ¬(b = '"'.toNat ∨ b = '\\'.toNat ∨ b = '/'.toNat) := by
    simp only [Char.reduceToNat]
    omega
  have hu : b ≠ 'u'.toNat := by
    simp only [Char.reduceToNat]
    omega
  rw [escape,atEnd_of_drop h1.left]
  simp only [reduceCtorEq,decide_false,Bool.false_eq_true,if_false,h1.byteAt,attempt_ok,ok_bind,if_neg hne,
    hl,if_neg hu,hcut,error_bind]
  rfl

/-! ### Strings -/

inductive Reading (text : Text) (d u : Bytes) : Text × ℕ × ℕ → Prop
  | mk {out : Text} {runStart i : ℕ} {run : Bytes} : At text runStart (run ++ u) →
      text.bytes.drop i = u → runStart ≤ i → i ≤ text.length → out.bytes ++ run = d →
      Reading text d u (out,runStart,i)

variable {st : Text × ℕ × ℕ}

theorem reading_at (h : At text i u) : Reading text o.bytes u (o,i,i) :=
  ⟨show At text i ([] ++ u) from h,h.left,Nat.le_refl _,h.le,List.append_nil _⟩

theorem reading_empty (h : At text i u) : Reading text [] u (.empty,i,i) := reading_at (o := .empty) h

theorem quotedRound_plain (h : Reading text d (b :: u) st) (h1 : 0x20 ≤ b) (h2 : b ≠ '"'.toNat)
    (h3 : b ≠ '\\'.toNat) : ∃ st', quotedRound text p st = .ok (.next st') ∧
      Reading text (d ++ [b]) u st' ∧ text.length - st'.2.2 < text.length - st.2.2 := by
  obtain ⟨hrun,hi,hle,hlen,hd⟩ := h
  rename_i out runStart i run
  have hlt := (List.getElem?_eq_some_iff.mp (byte_of_drop hi)).1
  have hlt' : i < text.length := hlt
  refine ⟨(out,runStart,i + 1),?_,.mk (show At text runStart ((run ++ [b]) ++ u) by simpa using hrun) (drop_succ hi) (by omega)
    hlt' (by rw [← hd,List.append_assoc]),by simp only; omega⟩
  simp only [quotedRound,atEnd_of_drop hi,reduceCtorEq,decide_false,Bool.false_eq_true,if_false,
    byteAt_of_drop hi,attempt_ok,ok_bind,if_neg h2,if_neg h3,if_neg (Nat.not_lt.mpr h1)]

theorem quotedRound_quote (h : Reading text d ('"'.toNat :: u) st) :
    ∃ v j, quotedRound text p st = .ok (.done (v,j)) ∧ v.bytes = d ∧ At text j u := by
  obtain ⟨hrun,hi,hle,hlen,hd⟩ := h
  rename_i out runStart i run
  obtain ⟨v,hv,hs⟩ := hrun.substring (at_of_ascii hi (by decide)) hle
  refine ⟨out.append v,i + 1,?_,?_,at_next hi (by decide)⟩
  · simp only [quotedRound,atEnd_of_drop hi,reduceCtorEq,decide_false,Bool.false_eq_true,if_false,
      byteAt_of_drop hi,attempt_ok,ok_bind,if_true,hv]
  · rw [Text.append_bytes,← List.append_cancel_right hs,hd]

theorem quotedRound_escape (h : Reading text d ('\\'.toNat :: u) st) :
    ∃ out, out.bytes = d ∧ At text st.2.2 ('\\'.toNat :: u) ∧ quotedRound text p st =
      (escape text out p st.2.2 >>= fun r => .ok (.next (r.1,r.2,r.2))) := by
  obtain ⟨hrun,hi,hle,hlen,hd⟩ := h
  rename_i out runStart i run
  have hat := at_of_ascii hi (by decide)
  obtain ⟨v,hv,hs⟩ := hrun.substring hat hle
  refine ⟨out.append v,by rw [Text.append_bytes,← List.append_cancel_right hs,hd],hat,?_⟩
  simp only [quotedRound,atEnd_of_drop hi,reduceCtorEq,decide_false,Bool.false_eq_true,if_false,
    byteAt_of_drop hi,attempt_ok,ok_bind,if_true,hv]
  rfl

/-- A round throws at the end of the text and at a control character. -/
theorem quotedRound_refuses (hs : p ≤ text.length) (h : Reading text d u st)
    (hu : u = [] ∨ ∃ b t, u = b :: t ∧ b < 0x20) {Q : Flow (Text × ℕ × ℕ) (Text × ℕ) → Prop} {bad : Prop} :
    Yields (quotedRound text p st) Q (Aborts bad) := by
  obtain ⟨hrun,hi,hle,hlen,hd⟩ := h
  rename_i out runStart i run
  rcases hu with rfl | ⟨b,t,rfl,hb⟩
  · rw [quotedRound,atEnd_of_drop hi,if_pos (by simp)]
    exact yields_refuse (endsInside_ok _ _ hs hlen)
  · have h2 : b ≠ '"'.toNat := by simp only [Char.reduceToNat]; omega
    have h3 : b ≠ '\\'.toNat := by simp only [Char.reduceToNat]; omega
    simp only [quotedRound,atEnd_of_drop hi,reduceCtorEq,decide_false,Bool.false_eq_true,if_false,
      byteAt_of_drop hi,attempt_ok,ok_bind,if_neg h2,if_neg h3,if_pos hb]
    refine yields_refuse ?_
    obtain ⟨w,hw⟩ := where_ok hs
    obtain ⟨w',hw'⟩ := where_ok hlen
    rw [hw,ok_bind,hw',ok_bind]
    exact failure_ok _ hlen

theorem quoted_sound (h : At text p ('"'.toNat :: s)) :
    Yields (quoted text p) (fun r => ∃ t, Quoted ('"'.toNat :: s) r.1 t ∧ At text r.2 t)
      (Aborts (∃ d, Strays (fun s t => Body s d t) s)) := by
  have h1 := h.next (by decide)
  -- What is still to be read completes what is read to the inside of the string.
  refine yields_loop (I := fun st => ∃ d u, Reading text d u st ∧
    ∀ d' t, Body u d' t → Body s (d ++ d') t) (fun st => text.length - st.2.2) (fun st hst => ?_)
    ⟨[],s,reading_empty h1,fun d' t => id⟩ (by simp only; omega)
  obtain ⟨d,u,hr,hbody⟩ := hst
  cases u with
  | nil => exact quotedRound_refuses h.le hr (.inl rfl)
  | cons b u =>
    by_cases hq : b = '"'.toNat
    · subst hq
      obtain ⟨v,j,hround,hv,hj⟩ := quotedRound_quote (p := p) hr
      rw [hround]
      refine ⟨u,.mk ?_,hj⟩
      simpa [hv] using hbody [] _ .nil
    by_cases hb : b = '\\'.toNat
    · subst hb
      obtain ⟨out,rfl,hat,hround⟩ := quotedRound_escape (p := p) hr
      rw [hround]
      refine Yields.bind ((escape_sound h.le hat).mono (fun _ => id) fun e => Aborts.mono ?_)
        fun r ⟨e,t,hout,he,ht⟩ => ⟨⟨r.1.bytes,t,reading_at ht,fun d' t' hb => ?_⟩,?_⟩
      · rintro ⟨b,t,rfl,hb⟩
        exact ⟨_,b,t,by simpa using hbody [] _ .nil,hb⟩
      · rw [hout,List.append_assoc]
        exact hbody _ _ (.escape he hb)
      · have := hat.lt_of_length ht (Nat.lt_succ_of_lt he.length_lt)
        have := ht.le
        simp only
        omega
    · rcases Nat.lt_or_ge b 0x20 with hc | hc
      · exact quotedRound_refuses h.le hr (.inr ⟨b,u,rfl,hc⟩)
      · obtain ⟨st',hround,hr',hμ⟩ := quotedRound_plain (p := p) hr hc hq hb
        rw [hround]
        refine ⟨⟨d ++ [b],u,hr',fun d' t hd' => ?_⟩,hμ⟩
        rw [List.append_assoc]
        exact hbody _ _ (.plain hc hq hb hd')

/-- The reader goes through the inside of a string as far as it is one. -/
theorem quotedRounds {d' : Bytes} (hb : Body u d' t) {fuel : ℕ} (hr : Reading text d u st)
    (hf : text.length - st.2.2 < fuel) : ∃ fuel' st', Reading text (d ++ d') t st' ∧
      text.length - st'.2.2 < fuel' ∧ loop (.stop .endless) (quotedRound text p) fuel st =
        loop (.stop .endless) (quotedRound text p) fuel' st' := by
  induction hb generalizing d st fuel with
  | nil => exact ⟨fuel,st,by simpa using hr,hf,rfl⟩
  | plain h1 h2 h3 _ ih =>
    obtain ⟨st₁,hround,hr₁,hμ⟩ := quotedRound_plain (p := p) hr h1 h2 h3
    obtain ⟨fuel,rfl⟩ : ∃ f, fuel = f + 1 := ⟨fuel - 1,by omega⟩
    obtain ⟨fuel',st',hr',hf',heq⟩ := ih hr₁ (show _ < fuel by omega)
    exact ⟨fuel',st',by simpa using hr',hf',by rw [loop_next hround,heq]⟩
  | @escape s e u _ _ he _ ih =>
    obtain ⟨out,rfl,hat,hround⟩ := quotedRound_escape (p := p) hr
    obtain ⟨v,j,hesc,hv,hj⟩ := escape_complete (o := out) (q := p) hat he
    have hlt : st.2.2 < j := hat.lt_of_length hj (Nat.lt_succ_of_lt he.length_lt)
    rw [hesc,ok_bind] at hround
    obtain ⟨fuel,rfl⟩ : ∃ f, fuel = f + 1 := ⟨fuel - 1,by omega⟩
    have := hj.le
    obtain ⟨fuel',st',hr',hf',heq⟩ := ih (reading_at hj) (show text.length - j < fuel by omega)
    rw [hv,List.append_assoc] at hr'
    exact ⟨fuel',st',hr',hf',by rw [loop_next hround,heq]⟩

theorem quoted_complete {v : Text} (h : At text p s) (hq : Quoted s v t) :
    ∃ j, quoted text p = .ok (v,j) ∧ At text j t := by
  obtain ⟨hb⟩ := hq
  have h1 := h.next (by decide)
  obtain ⟨fuel,st,hr,hf,heq⟩ := quotedRounds (p := p) hb (reading_empty h1)
    (show text.length - (p + 1) < text.length + 1 by omega)
  obtain ⟨v',j,hround,hv,hj⟩ := quotedRound_quote (p := p) hr
  obtain ⟨fuel,rfl⟩ : ∃ f, fuel = f + 1 := ⟨fuel - 1,by omega⟩
  obtain rfl : v' = v := Text.ext (by simpa using hv)
  exact ⟨j,by rw [quoted,heq,loop_done hround],hj⟩

theorem quoted_aborts (h : At text p ('"'.toNat :: s)) (hb : Body s d ('\\'.toNat :: b :: t))
    (hb' : 0x80 ≤ b) : quoted text p = .error (.stop .abort) := by
  have h1 := h.next (by decide)
  obtain ⟨fuel,st,hr,hf,heq⟩ := quotedRounds (p := p) hb (reading_empty h1)
    (show text.length - (p + 1) < text.length + 1 by omega)
  obtain ⟨out,-,hat,hround⟩ := quotedRound_escape (p := p) hr
  rw [escape_aborts hat hb',error_bind] at hround
  obtain ⟨fuel,rfl⟩ : ∃ f, fuel = f + 1 := ⟨fuel - 1,by omega⟩
  rw [quoted,heq,loop,hround]

end Cursor
end Ens.Json
